import DecisionDiagrams.Proofs.Solver.Coherence
import DecisionDiagrams.Proofs.Solver.Fixpoint
import DecisionDiagrams.Proofs.Spec.Stepping

/-! Stored states under transitions which may read combined properties. While a relaxed diagram is built no combined
state is known, and a property which reads one is not computed again when they become known. So only the properties
which read none are at the fixpoint after every propagation. -/

namespace DecisionDiagrams

/-- The laws by which every property which is certain is at the fixpoint, if values are not grouped. -/
def Code.certain : Code := fun p d L => p.model.Separate d → p.model.Lattice d.side →
  p.options.groupValues = false → ∀ {l ins σ s i}, L.holds l ins σ s (some i) → p.options.isExact = false →
    p.model.Certain d i → p.model.Least d l ins σ s i

theorem Plan.governed_certain {b : Spec} {p : Plan} (h : b.Plans p) (s : Domains) : p.Governed .certain s where
  distinct := h.distinct
  valid := h.valid
  readsOwn := (Spec.compile_eq_ok.1 h.compiled).2 ▸ b.readsOwn
  laws d := by
    by_cases hm : p.model.Separate d ∧ p.model.Lattice d.side ∧ p.options.groupValues = false
    · obtain ⟨separate, lattice, lone⟩ := hm
      have sums : ∀ i, p.model.Certain d i → p.model.Sums d (fun _ values => ∃ v, values = .singleton v) i :=
        fun i hi => hi.sums lattice
      exact ⟨.summed (D := fun _ _ => True) separate lattice sums fun _ single => single lone,
        fun _ _ _ _ _ _ _ _ h => h, fun _ _ _ _ => trivial⟩
    · exact ⟨.free p d, fun separate lattice lone => absurd ⟨separate, lattice, lone⟩ hm, fun _ _ _ _ => trivial⟩

theorem Rules.free_upholds_certain :
    Rules.free.Upholds (fun _ _ => False) (fun _ _ => False) (Obeys .certain) :=
  Obeys.upheld fun s _ _ h => Plan.governed_certain h s.domains

theorem Obeys.settledIn_unmixed {p : Plan} {stale : Nat → Prop} {d : Diagram} {s : Domains}
    (h : Obeys .certain p stale d s) {b : Spec} (plans : b.Plans p) (stepping : b.Stepping)
    (relaxed : p.options.isExact = false) (lone : p.options.groupValues = false) (beside : NodeId → Option State) :
    d.SettledIn p beside (b.Unmixed .down) (b.Unmixed .up) := by
  obtain ⟨checked, model⟩ := Spec.compile_eq_ok.1 plans.compiled
  have sure : ∀ e : Direction, p.model.Sure e (b.Unmixed e.side) := fun e => model ▸ stepping.sure checked e
  refine h.settledIn relaxed (P := fun e => b.Unmixed e.side) sure (fun e n on hs i hi => ?_) beside
  obtain ⟨L, hL, -, hlaw⟩ := h.lawful e
  exact hL (sure e).toSeparate (sure e).toLattice lone (hlaw.of_workspace on hs (some i)) relaxed
    ((sure e).certain i hi)

/-- Let the transitions of a specification always write their property, from the property and from what they declare
to read, and let values not be grouped. Whatever the rules of the other diagrams are, in its relaxed diagrams every
property which reads no combined one is at the fixpoint after a propagation which succeeds, and in the course of a
propagation as soon as the diagram was called without failing. -/
theorem Run.unmixed_settled {h : Story Spec} {s : Solver} (run : Run .free h s) (calm : h.calm = true) {o t : Solver}
    (starts : s.Starts .free o) {i : Nat} (done : o.propagate = (none, t) ∨ o.Succeeds i t) {p : Plan} {d : Diagram}
    (plan : t.planAt i = some p) (diagram : t.world.diagrams[i]? = some d) {b : Spec} (plans : b.Plans p)
    (stepping : b.Stepping) (relaxed : p.options.isExact = false) (lone : p.options.groupValues = false) :
    d.SettledIn p (fun n => some (d.graph.state n .combined)) (b.Unmixed .down) (b.Unmixed .up) := by
  rcases done with done | called
  · exact (run.stands_of_propagate Rules.free_upholds_certain calm starts done plan diagram).settledIn_unmixed plans
      stepping relaxed lone _
  · obtain ⟨_, hs⟩ := run.stands_of_call Rules.free_upholds_certain calm starts called plan diagram
    exact hs.settledIn_unmixed plans stepping relaxed lone _

namespace Balance

/-- Both sums read themselves and the labels only. -/
theorem stepping : spec.Stepping := .of_integers checked fun {d i q} hq => by
  obtain rfl : i = 0 := by cases d <;> exact Nat.lt_one_iff.1 (Array.getElem?_eq_some_iff.1 hq).1
  have same : ∀ {l s s' combined combined'}, (∀ j, j = 0 ∨ (⟨d.side, j⟩ : PropertyRef) ∈ [] →
        spec.toModel.Alike d.side j s s') →
      (fun values : IntSet => (spec.toModel.stepFacts d l s combined).source.integer 0 + values.toList.headD 0) =
        fun values => (spec.toModel.stepFacts d l s' combined').source.integer 0 + values.toList.headD 0 := by
    intro l s s' combined combined' hs
    funext values
    exact congrArg (· + _) (Model.Alike.integer (hs 0 (Or.inl rfl)))
  cases d <;> obtain rfl := Option.some.inj hq <;>
    exact ⟨nofun, [], fun x values => x.source.integer 0 + values.toList.headD 0, 0, 0, 4, rfl, rfl, fun hs _ => same hs⟩

end Balance

theorem Run.unmixed_settled_balance :
    Balance.diagram.SettledIn Balance.plan (fun n => some (Balance.diagram.graph.state n .combined))
      (Balance.spec.Unmixed .down) (Balance.spec.Unmixed .up) := by
  obtain ⟨h, run, calm⟩ := Balance.run_assigned
  have plan := Balance.planAt_propagated
  have diagram := Solver.diagram_eq_getD (run.propagate calm Balance.propagate_assigned) plan default
  exact Run.unmixed_settled run calm (Or.inl rfl) (Or.inl Balance.propagate_assigned) plan diagram Balance.plans
    Balance.stepping rfl rfl

/-! Two layers in a diagram of width one. The up property counts what is below, a combined property copies it, and
the down property takes over the combined one of the node above. While the diagram is built there is none, so the down
property of the node in the middle is 0; it stays so although the combined property of the root becomes 1. -/
namespace Belated

def register : StateM Spec Unit := do
  let c ← Spec.addScope "completed" [0, 1]
  let rest ← Spec.declareProperty c .up (.integer 0 0 2) .maximum
  let most ← Spec.declareProperty c .combined (.integer 0 0 2) .maximum
  let bound ← Spec.declareProperty c .down (.integer 0 0 2) .maximum
  Spec.setTransition rest [] fun _ _ out => .ok (out.setInteger 0 1)
  Spec.setCombine most [rest] fun _ up out => .ok (out.setInteger 0 (up.integer 0))
  Spec.setTransition bound [most] fun facts _ out =>
    .ok (out.setInteger 0 ((facts.combined.map (·.integer 0)).getD 0))

def spec : Spec := (register {}).2

def plan : Plan := { model := spec.toModel, options := Options.relaxed 1 }

def posted : Solver := (Balance.started.addDiagram plan).2

def diagram : Diagram := (posted.propagate.2.world.diagrams[0]?).getD default

/-- What the labels of the arcs to the node in the middle make of the states which the root has in the end. -/
def due : Checked State := do
  let ss ← (diagram.graph.incoming 1).toList.mapM fun a => plan.model.step .down 0
    (diagram.graph.state (diagram.graph.arc a).parent .down)
    (some (diagram.graph.state (diagram.graph.arc a).parent .combined)) (.singleton (diagram.graph.arc a).value)
  (ss.drop 1).foldlM (fun t u => plan.model.mergeProperty .down u t 0) (ss.headD default)

/-- How the operations are answered, and what becomes of the node in the middle. -/
theorem answers : spec.check = .ok () ∧ (Balance.started.addDiagram plan).1 = .ok 0 ∧ posted.propagate.1 = none ∧
    0 < plan.model.depth ∧ 1 ∈ diagram.graph.layer 1 ∧
    due.map (fun r => (plan.model.view .down r).integer 0) = .ok 1 ∧
    (plan.model.view .down (diagram.graph.state 1 .down)).integer 0 = 0 := by decide +kernel

theorem checked : spec.check = .ok () := answers.1

theorem plans : spec.Plans plan :=
  ⟨.adjust (.adjust (.adjust (.property (.property (.property (.scope .start _ _) _ _ _ _) _ _ _ _) _ _ _ _) _ _) _ _)
    _ _, Spec.compile_eq_ok.2 ⟨checked, rfl⟩, rfl⟩

/-- The number of layers below a node, as it is registered. -/
def rest : Property where
  constraint := 0
  kind := .integer 0 0 2
  relaxation := .maximum
  rule := .transition [] fun _ _ out => .ok (out.setInteger 0 1)

/-- What the node above says of the layers below it. -/
def bound : Property where
  constraint := 0
  kind := .integer 0 0 2
  relaxation := .maximum
  rule := .transition [⟨.combined, 0⟩] fun facts _ out =>
    .ok (out.setInteger 0 ((facts.combined.map (·.integer 0)).getD 0))

theorem stepping : spec.Stepping := .of_integers checked fun {d i q} hq => by
  obtain rfl : i = 0 := by cases d <;> exact Nat.lt_one_iff.1 (Array.getElem?_eq_some_iff.1 hq).1
  cases d with
  | down =>
    obtain rfl : bound = q := Option.some.inj hq
    refine ⟨nofun, [⟨.combined, 0⟩], fun x _ => (x.combined.map (·.integer 0)).getD 0, 0, 0, 2, rfl, ?_, ?_⟩
    · rfl
    · intro l s s' combined combined' _ hcomb
      funext _
      cases hcomb 0 List.mem_cons_self with
      | none => rfl
      | @some a b alike =>
        have same : (spec.toModel.view .combined a).integer 0 = (spec.toModel.view .combined b).integer 0 :=
          alike.integer
        exact same
  | up =>
    obtain rfl : rest = q := Option.some.inj hq
    refine ⟨nofun, [], fun _ _ => 1, 0, 0, 2, rfl, ?_, ?_⟩
    · rfl
    · intro l s s' combined combined' _ _
      rfl

theorem combining : spec.Combining := .of_integers checked fun {i q} hq => by
  obtain rfl : i = 0 := Nat.lt_one_iff.1 (Array.getElem?_eq_some_iff.1 hq).1
  obtain rfl := Option.some.inj hq
  refine ⟨[⟨.up, 0⟩], fun _ up => up.integer 0, 0, 0, 2, rfl, ?_, ?_⟩
  · rfl
  · intro x y same
    exact Model.Alike.integer (same ⟨.up, 0⟩ List.mem_cons_self)

theorem add_started : Balance.started.addDiagram plan = (.ok 0, posted) := Prod.fst_eq_iff.1 answers.2.1

theorem run_posted : ∃ h, Run .free h posted ∧ h.calm = true := by
  have h₁ : ({} : Solver).addVariable (some Alternating.domain) = .ok (0, Alternating.first) := rfl
  have h₂ : Alternating.first.addVariable (some Alternating.domain) = .ok (1, Balance.started) := rfl
  exact ⟨_, (((Run.start (R := Rules.free)).addVariable rfl h₁).addVariable rfl h₂).post rfl plans add_started, rfl⟩

end Belated

/-- Properties which read combined ones need not be at the fixpoint after a propagation. -/
theorem Run.mixed_unsettled :
    ¬ ∀ (h : Story Spec) (s t : Solver) (i : Nat) (p : Plan) (d : Diagram) (b : Spec), Run .free h s →
      h.calm = true → s.propagate = (none, t) → t.planAt i = some p → t.world.diagrams[i]? = some d → b.Plans p →
      b.Stepping → b.Combining → p.options.isExact = false → p.options.groupValues = false →
      d.SettledIn p (fun n => some (d.graph.state n .combined)) (fun _ => True) fun _ => True := by
  intro general
  obtain ⟨-, -, ended, deep, node, bound, stored⟩ := Belated.answers
  obtain ⟨h, run, calm⟩ := Belated.run_posted
  have done : Belated.posted.propagate = (none, Belated.posted.propagate.2) := Prod.fst_eq_iff.1 ended
  have plan : Belated.posted.propagate.2.planAt 0 = some Belated.plan := by
    rw [Solver.planAt_propagate]
    exact Solver.planAt_of_addDiagram Belated.add_started
  have diagram := Solver.diagram_eq_getD (run.propagate calm done) plan default
  have settled := general h _ _ 0 _ _ _ run calm done plan diagram Belated.plans Belated.stepping Belated.combining rfl rfl
  obtain ⟨ss, hss, merges⟩ := settled.down 0 deep 1 node
  cases ss with
  | nil => exact merges 0 trivial
  | cons first rest =>
    obtain ⟨r, hr, alike⟩ := merges 0 trivial
    have due : Belated.due = .ok r := Checked.bind_eq_ok.2 ⟨_, hss, hr⟩
    rw [due] at bound
    have same := (Except.ok.inj bound).symm.trans (alike.integer.trans stored)
    exact absurd same (by decide)

end DecisionDiagrams
