import DecisionDiagrams.Proofs.Engine.Coherent
import DecisionDiagrams.Proofs.Solver.Assignments
import DecisionDiagrams.Proofs.Solver.Labels
import DecisionDiagrams.Proofs.Solver.Matures
import DecisionDiagrams.Proofs.Solver.Termination

/-! Combined states are coherent in every diagram of a solver. It does not matter which operations came before or
how they ended, as long as the combine functions keep to what they declare: once up states are known, the combined
state of a node is computed together with it, and after that every change of a property which it reads reaches it. -/

namespace DecisionDiagrams

open Work

variable {p : Plan} {d : Diagram}

/-- A diagram whose graph agrees with itself and which is coherent if up states are known. -/
def Diagram.Ensuing (p : Plan) (known : Bool) (d : Diagram) : Prop := d.Usable p ∧ d.AllCoherent p.model known

namespace Diagram.Ensuing

variable {known : Bool}

theorem of_wp {x : Propagated} {w : Workspace} (h : AllEnsuing p known w) (hd : x.diagram = w.toDiagram) :
    x.diagram.Ensuing p known := by
  rw [hd]
  exact ⟨usable_of_census h.1.toCensus h.1.built, h.2⟩

theorem propagate (hm : p.model.Combining) (h : d.Ensuing p known) (fuel : Nat) (lost : List Nat) (s : Domains) :
    (d.propagate p fuel lost s).diagram.Ensuing p known := by
  obtain ⟨-, census⟩ := h.1.resolve_left (by rintro rfl; exact absurd h.2.built nofun)
  have hw : AllEnsuing p known (d.workspace p s) :=
    ⟨filed_of_built h.2.built (census s), h.2.built, h.2.upKnown, h.2.ensues⟩
  obtain ⟨w', hd, -, done, stopped⟩ := propagate_of_wp (wp_maintain_coherent hm fuel lost hw)
  refine of_wp ?_ hd
  cases stop : (d.propagate p fuel lost s).stop with
  | none => exact done stop
  | some e => exact stopped e stop

/-- A first propagation which succeeds computes up states in relaxed diagrams only. -/
theorem first (hp : p.Distinct) (hv : p.options.isValid = true) (hm : p.model.Combining) {fuel : Nat} {lost : List Nat}
    {s : Domains} (done : ((initial p.model).propagate p fuel lost s).stop = none) :
    ((initial p.model).propagate p fuel lost s).diagram.Ensuing p (!p.options.isExact || !p.model.hasUp) := by
  have fresh : ∀ n, ((initial p.model).workspace p s).graph.isActive n = false := fun n =>
    Bool.eq_false_iff.2 fun on => Nat.not_lt_zero n (Graph.lt_of_isActive _ on)
  obtain ⟨w', hd, -, ended, -⟩ := propagate_of_wp (wp_first_coherent hm hp hv fuel lost
    (tidy_initial p (fun _ => False) s) (suits_workspace _ p s) fresh rfl rfl)
  exact of_wp (ended done) hd

end Diagram.Ensuing

theorem matures_coherent : Matures fun p d => p.Distinct → p.options.isValid = true → p.model.Combining →
    d.Ensuing p (!p.options.isExact || !p.model.hasUp) where
  first _ _ _ _ done hp hv hm := .first hp hv hm done
  propagate _ _ fuel lost t h hp hv hm := (h hp hv hm).propagate hm fuel lost t

/-- Without combined properties there is nothing to be compared. -/
theorem Spec.alike_combined_of_none {b : Spec} (none : b.toModel.hasCombined = false) (i : Nat) (s t : State) :
    b.toModel.Alike .combined i s t := fun slot hs => by
  obtain ⟨q, hq, -⟩ := Spec.property_of_slot hs
  have empty : b.properties.combined.isEmpty = true := by simpa [Model.hasCombined, Spec.toModel] using none
  have hi := (Array.getElem?_eq_some_iff.1 hq).1
  rw [show b.properties.get .combined = #[] from Array.isEmpty_iff.1 empty] at hi
  exact absurd hi (Nat.not_lt_zero i)

/-- Let the combine functions of a specification always write their property, from the down and up properties
which they declare to read. Whatever was done before, a propagation which succeeds leaves diagrams of it of which
the up states are known if and only if they are relaxed or have none. Then the combined state of every node is,
property by property, what is computed from the down and the up state of the node. In the course of a propagation
this holds of a diagram as soon as it was called without failing. -/
theorem Solver.coherent_of_propagate {o t : Solver} (poised : o.Poised) {i : Nat}
    (done : o.propagate = (none, t) ∨ o.rootFailure = none ∧ o.Succeeds i t) (plan : t.planAt i = some p)
    (diagram : t.world.diagrams[i]? = some d) {b : Spec} (plans : b.Plans p) (combining : b.Combining) :
    (d.upKnown = true ↔ p.options.isExact = false ∨ p.model.hasUp = false) ∧
      (d.upKnown = true → ∀ n, d.graph.isActive n = true →
        ∃ c, p.model.derive (d.graph.state n .down) (d.graph.state n .up) = .ok c ∧
          ∀ j, p.model.Alike .combined j c (d.graph.state n .combined)) := by
  obtain ⟨checked, model⟩ := Spec.compile_eq_ok.1 plans.compiled
  have hm : p.model.Combining := model ▸ combining.model checked
  obtain ⟨-, h⟩ := poised.holds matures_coherent done plan diagram plans.distinct plans.valid hm
  have known : d.upKnown = true ↔ p.options.isExact = false ∨ p.model.hasUp = false := by
    rw [h.upKnown]
    simp
  refine ⟨known, fun hk n on => ?_⟩
  cases has : p.model.hasCombined with
  | true => exact hm.exists_derive_iff.1 (h.ensues (h.upKnown ▸ hk) has n on not_false)
  | false =>
    obtain ⟨c, hc⟩ := hm.exists_deriveInto (d.graph.state n .down) (d.graph.state n .up)
      (p.model.everyProperty .combined) (p.model.fresh .combined)
    exact ⟨c, hc, fun j => model ▸ Spec.alike_combined_of_none (model ▸ has) j _ _⟩

/-! Two variables in 1 and 2, the sums of the values before and after a node, and their sum as a combined property. The
diagram has width one, and after it was posted the first variable is set to 2. -/
namespace Balance

def register : StateM Spec Unit := do
  let c ← Spec.addScope "balance" [0, 1]
  let before ← Spec.declareProperty c .down (.integer 0 0 4) .minimum
  let after ← Spec.declareProperty c .up (.integer 0 0 4) .minimum
  let total ← Spec.declareProperty c .combined (.integer 0 0 8) .minimum
  Spec.setTransition before [] fun facts values out =>
    .ok (out.setInteger 0 (facts.source.integer 0 + values.toList.headD 0))
  Spec.setTransition after [] fun facts values out =>
    .ok (out.setInteger 0 (facts.source.integer 0 + values.toList.headD 0))
  Spec.setCombine total [before, after] fun down up out =>
    .ok (out.setInteger 0 (down.integer 0 + up.integer 0))

def spec : Spec := (register {}).2

def plan : Plan := { model := spec.toModel, options := Options.relaxed 1 }

def before : List Operation := [.newVariable (some Alternating.domain), .newVariable (some Alternating.domain)]

def started : Solver := Solver.performAll {} before

def posted : Solver := (started.addDiagram plan).2

def assigned : Solver := (posted.restrict 0 (·.restrict? 0 (· == 2))).toOption.getD posted

def diagram : Diagram := (assigned.propagate.2.world.diagrams[0]?).getD default

/-- How the operations are answered. -/
theorem answers : spec.check = .ok () ∧ (started.addDiagram plan).1 = .ok 0 ∧
    (posted.restrict 0 (·.restrict? 0 (· == 2))).toOption.isSome = true ∧ assigned.propagate.1 = none ∧
    diagram.graph.isActive 1 = true := by decide +kernel

theorem checked : spec.check = .ok () := answers.1

theorem plans : spec.Plans plan :=
  ⟨.adjust (.adjust (.adjust (.property (.property (.property (.scope .start _ _) _ _ _ _) _ _ _ _) _ _ _ _) _ _) _ _)
    _ _, Spec.compile_eq_ok.2 ⟨checked, rfl⟩, rfl⟩

/-- The only combined property is the sum of the two properties which it declares to read. -/
theorem combining : spec.Combining := .of_integers checked fun {i q} hq => by
  obtain rfl : i = 0 := Nat.lt_one_iff.1 (Array.getElem?_eq_some_iff.1 hq).1
  obtain rfl := Option.some.inj hq
  refine ⟨[⟨.down, 0⟩, ⟨.up, 0⟩], fun down up => down.integer 0 + up.integer 0, 0, 0, 8, rfl, ?_, ?_⟩
  · rfl
  · intro x y same
    exact congrArg₂ (· + ·) (Model.Alike.integer (same ⟨.down, 0⟩ List.mem_cons_self))
      (Model.Alike.integer (same ⟨.up, 0⟩ (List.mem_cons_of_mem _ List.mem_cons_self)))

theorem add_started : started.addDiagram plan = (.ok 0, posted) := Prod.fst_eq_iff.1 answers.2.1

theorem restrict_posted : posted.restrict 0 (·.restrict? 0 (· == 2)) = .ok assigned :=
  Lone.eq_ok_getD answers.2.2.1

theorem propagate_assigned : assigned.propagate = (none, assigned.propagate.2) :=
  Prod.fst_eq_iff.1 answers.2.2.2.1

theorem planAt_propagated : assigned.propagate.2.planAt 0 = some plan := by
  rw [Solver.planAt_propagate, Solver.planAt_of_restrict restrict_posted]
  exact Solver.planAt_of_addDiagram add_started

theorem run_assigned : ∃ h, Run .free h assigned ∧ h.calm = true := by
  have h₁ : ({} : Solver).addVariable (some Alternating.domain) = .ok (0, Alternating.first) := rfl
  have h₂ : Alternating.first.addVariable (some Alternating.domain) = .ok (1, started) := rfl
  have run := (((Run.start (R := Rules.free)).addVariable rfl h₁).addVariable rfl h₂).post rfl plans add_started
  exact ⟨_, run.restrict rfl restrict_posted, rfl⟩

theorem performed : assigned = Solver.performAll {} (before ++ [.add plan, .restrict 0 (· == 2)]) := by
  rw [Solver.performAll_append]
  show assigned = (posted.perform (.restrict 0 (· == 2))).2
  unfold Solver.perform
  dsimp only
  rw [restrict_posted]

end Balance

theorem Solver.coherent_of_propagate_balance :
    ∃ c, Balance.plan.model.derive (Balance.diagram.graph.state 1 .down)
        (Balance.diagram.graph.state 1 .up) = .ok c ∧
      ∀ j, Balance.plan.model.Alike .combined j c (Balance.diagram.graph.state 1 .combined) := by
  obtain ⟨h, run, calm⟩ := Balance.run_assigned
  have plan := Balance.planAt_propagated
  have diagram := Solver.diagram_eq_getD (run.propagate calm Balance.propagate_assigned) plan default
  obtain ⟨known, coherent⟩ := Solver.coherent_of_propagate ⟨_, Or.inl Balance.performed⟩
    (Or.inl Balance.propagate_assigned) plan diagram Balance.plans Balance.combining
  exact coherent (known.2 (Or.inl rfl)) 1 Balance.answers.2.2.2.2

end DecisionDiagrams
