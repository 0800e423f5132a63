import DecisionDiagrams.Proofs.Engine.Paths
import DecisionDiagrams.Proofs.Engine.Vetted
import DecisionDiagrams.Proofs.Solver.Enumerates
import DecisionDiagrams.Proofs.Spec.Beside

/-! Tests of nodes in diagrams without a width. They are made when such a diagram is built, if no rule
computes an up state, and from then on the nodes pass every test which only looks at the down state.
If a rule does compute up states, these are never known in such a diagram, and the tests of nodes are
not made at all. -/

namespace DecisionDiagrams

/-- The diagram agrees with the domains and, if it has no width and no rule computes up states, its
nodes pass the tests which only look at the down state. -/
def Tested : Standing := fun p stale d s =>
  Agrees p stale d s ∧ (p.options.isExact = true → p.model.hasUp = false →
    Vetted p (d.workspace p s))

namespace Tested

variable {p : Plan} {stale : Nat → Prop} {d : Diagram} {s : Domains}

theorem returns (hp : p.Distinct) (hv : p.options.isValid = true) (fuel : Nat) (lost : List Nat)
    (h : d.built = true ∧ Tested p stale d s ∨ d = Diagram.initial p.model) :
    Returns Tested (fun _ _ => False) p (remaining stale d.built lost) s
      (d.propagate p fuel lost s) := by
  have ht : Tidy p stale [] (d.workspace p s) := by
    rcases h with ⟨-, h⟩ | rfl
    · exact h.1.1
    · exact tidy_initial p stale s
  have hr := Agrees.returns hp hv fuel lost ht
  refine { hr with stands := fun hstop => ⟨hr.stands hstop, fun he known => ?_⟩ }
  have hwp : Work.wp (if p.options.isExact then Work.maintainExact p lost
      else Work.maintainRelaxed p fuel lost) (fun _ w' => Vetted p w') (fun _ _ => True)
      (d.workspace p s) := by
    rw [if_pos he]
    refine Vetted.wp_maintainExact hp known ht ?_ lost
    rcases h with ⟨hb, h⟩ | rfl
    · exact Or.inl ⟨hb, h.2 he known⟩
    · exact Or.inr ⟨rfl, rfl, _, rfl⟩
  obtain ⟨w', hd, hs, hok, -⟩ := Diagram.propagate_of_wp hwp
  rw [hd, hs]
  exact (hok hstop).congr rfl rfl

end Tested

theorem Rules.free_upholds_tested :
    Rules.free.Upholds (fun _ _ => False) (fun _ _ => False) Tested := by
  have agrees : Rules.free.Upholds (fun _ _ => False) (fun _ _ => False) Agrees := Rules.free_upholds
  exact {
    under := agrees.under
    known := agrees.known
    distinct := agrees.distinct
    accepted := fun _ _ h => h
    adapt := by
      intro p stale stale' d s t h hle hst hlost
      refine ⟨agrees.adapt h.1 hle hst hlost, fun he known => ?_⟩
      exact (h.2 he known).congr rfl rfl
    first := by
      rintro p s fuel lost ⟨b, r, hp, -, -⟩
      have h := @Tested.returns p (fun _ => False) _ s hp.distinct hp.valid fuel lost (Or.inr rfl)
      refine { h with stands := fun he => ?_ }
      have hs := h.stands he
      exact ⟨⟨hs.1.1.weaken fun l hl => hl.1, hs.1.2⟩, hs.2⟩
    again := by
      rintro p stale d s fuel lost ⟨b, r, hp, -, -⟩ hb h
      have hr := Tested.returns hp.distinct hp.valid fuel lost (Or.inl ⟨hb, h⟩)
      refine { hr with stands := fun he => ?_ }
      have hs := hr.stands he
      exact ⟨⟨hs.1.1.weaken fun l hl => ⟨hl.1, fun hm => hl.2 ⟨hb, hm⟩⟩, hs.1.2⟩, hs.2⟩ }

/-- A test of nodes which reads the first down properties only. -/
def ReadsDown (n : Nat) (check : NodeFacts → Checked Bool) : Prop :=
  ∀ f g : NodeFacts, f.down.layout.Sound → g.down.layout.Sound → f.down.Shows n g.down →
    check f = check g

/-- If the rest of a specification leaves the properties of `a` alone, then along every path `a` alone
computes states which pass its tests, as far as its own layers reach. -/
theorem Vetted.along {p : Plan} {stale : Nat → Prop} {w : Workspace} (hv : Vetted p w)
    (ht : Tidy p stale [] w) {a b : Spec} (hb : b.compile = .ok p.model)
    (known : p.model.hasUp = false) (ha : a.Ordered) (hc : a.Closed) (hab : a.Beside b)
    {check : NodeFacts → Checked Bool} (mem : check ∈ p.model.nodeChecks) (down : SeesDown check)
    (reads : ReadsDown (a.count .down) check) {as : List ArcId}
    (hpath : w.graph.IsFullPath p.model.depth as) {k : Nat} (hk : k < a.toModel.depth) :
    ∃ r, a.toModel.reach 0 (a.toModel.fresh .down) ((w.graph.labels as).take k) = .ok r ∧
      ∀ f : NodeFacts, f.down = a.toModel.view .down r → check f = .ok true := by
  obtain ⟨model, options⟩ := p
  obtain ⟨valid, rfl⟩ : b.check = .ok () ∧ b.toModel = model := Spec.compile_eq_ok.1 hb
  obtain ⟨root, hroot, hpath⟩ := hpath
  obtain ⟨on, htop⟩ := ht.wf.mem_layer.1 hroot
  have hle : a.toModel.depth ≤ b.toModel.depth := hab.size_le
  obtain ⟨m, hm, -, hreach⟩ := hv.reach_of_path ht hpath k (by
    rw [htop, Nat.zero_add]
    exact Nat.lt_of_lt_of_le hk hle)
  rw [htop, hv.root root on htop] at hreach
  have hshort : ((w.graph.labels as).take k).length ≤ a.branchVars.size :=
    Nat.le_trans (List.length_take_le _ _) (Nat.le_of_lt hk)
  obtain ⟨r, hr, hshows⟩ := hab.reach valid ha hc known _ (by rwa [Nat.zero_add])
    (hab.shows_fresh valid .down) hreach
  refine ⟨r, hr, fun f hf => ?_⟩
  have hpass := hv.vets m hm check mem down
    (b.toModel.nodeFacts 0 (w.graph.node m).states 0 0) rfl
  rw [← hpass]
  refine reads _ _ ?_ (Spec.sound_layout valid .down) ?_
  · rw [hf]
    exact hab.sound valid .down
  · rw [hf]
    exact hshows.symm

/-- Let `b` have a test of the specification `a` which only looks at the down state, and let no rule of
`b` compute an up state. After a propagation the nodes of a diagram of `b` without a width pass the
test. If moreover the rest of `b` leaves the properties of `a` alone, then along every path `a` alone
computes states which pass the test, as far as its own layers reach. -/
theorem Run.nodes_pass {h : Story Spec} {s : Solver} (run : Run .free h s) (calm : h.calm = true)
    {o t : Solver} (starts : s.Starts .free o) (done : o.propagate = (none, t)) {i : Nat} {p : Plan}
    {d : Diagram} (plan : o.planAt i = some p) (diagram : t.world.diagrams[i]? = some d)
    (exact : p.options.maxWidth = none) {a b : Spec} (plans : b.Plans p)
    (known : p.model.hasUp = false) {check : NodeFacts → Checked Bool}
    (mem : check ∈ a.nodeChecks) (shared : a.nodeChecks.toList ⊆ b.nodeChecks.toList)
    (down : SeesDown check) :
    (∀ l, ∀ n ∈ d.graph.layer l, ∀ f : NodeFacts,
      f.down = p.model.view .down (d.graph.state n .down) → check f = .ok true) ∧
    (a.Registered → a.Closed → a.Beside b → ReadsDown (a.count .down) check →
      ∀ as, d.graph.IsFullPath p.model.depth as → ∀ k < a.toModel.depth,
        ∃ r, a.toModel.reach 0 (a.toModel.fresh .down) ((d.graph.labels as).take k) = .ok r ∧
          ∀ f : NodeFacts, f.down = a.toModel.view .down r → check f = .ok true) := by
  have he : p.options.isExact = true := by
    unfold Options.isExact
    rw [exact]
    rfl
  obtain ⟨kept, alive⟩ := run.kept_of_starts Rules.free_upholds_tested calm starts
  obtain ⟨hk, hq, -, hpr, -⟩ := kept.propagate Rules.free_upholds_tested.toUpheld alive done
  rcases hk.stands i p d ((hpr.plan i).trans plan) diagram with ⟨-, ⟨ht, -⟩, hv⟩ | ⟨-, hm⟩
  · have hv := hv he known
    have checked : check ∈ p.model.nodeChecks := by
      rw [← (Spec.compile_eq_ok.1 plans.compiled).2]
      exact shared (Array.mem_toList_iff.2 mem)
    refine ⟨fun l n hn f hf => ?_, fun ha hclosed hbeside hreads as hpath k hk => ?_⟩
    · exact hv.vets n (ht.wf.mem_layer.1 hn).1 check checked down f hf
    · exact hv.along ht plans.compiled known (Spec.ordered_of_registered ha) hclosed hbeside checked
        down hreads hpath hk
  · rw [hq] at hm
    cases hm

/-! A solver with the variables `x0` and `x1` in 1 and 2. The state is the value before, which a test of
nodes wants to be at most 1. It shares its diagram with a counter of the variables from the root on,
or with one from the sink on, which keeps the up states unknown. -/
namespace Ceiling

/-- The test of the value before. -/
def low (node : NodeFacts) : Checked Bool := .ok (decide (node.down.integer 0 ≤ 1))

def register : StateM Spec Unit := do
  let c ← Spec.addScope "ceiling" [0, 1]
  let last ← Spec.declareProperty c .down (.integer 0 0 2) .minimum
  Spec.setTransition last [] fun _ values out => .ok (out.setInteger 0 (values.toList.headD 0))
  Spec.addNodeCheck low

/-- A counter of the variables which are passed on the way to a side, as its property `i`. -/
def counter (side : Side) (i : Nat) : StateM Spec Unit := do
  let c ← Spec.addScope "counter" [0, 1]
  let count ← Spec.declareProperty c side (.integer 0 0 2) .maximum
  Spec.setTransition count [] fun facts _ out =>
    .ok (out.setInteger i (facts.source.integer i + 1))

def alone : Spec := (register {}).2

def shared : Spec := (counter .down 1 alone).2

def hidden : Spec := (counter .up 0 alone).2

def plan (b : Spec) : Plan := { model := b.toModel, options := Options.exact }

def enrolled (b : Spec) : Solver := Alternating.started.enrol (plan b)

def posted (b : Spec) : Solver := (enrolled b).propagate.2

def diagram (b : Spec) : Diagram := ((posted b).world.diagrams[0]?).getD default

theorem registered : alone.Registered :=
  .nodeCheck (.adjust (.property (.scope .start _ _) _ _ _ _) _ _) _

/-- The specifications pass the check and are about the same variables. -/
theorem checked : shared.check = .ok () ∧ hidden.check = .ok () ∧
    alone.branchVars.toList = [0, 1] ∧ shared.branchVars.toList = [0, 1] ∧ hidden.branchVars.toList = [0, 1] ∧
    1 < alone.toModel.depth ∧ shared.toModel.hasUp = false := by decide +kernel

/-- One node is left of the diagram where the counter is a down property, and its arcs are 0 and 4. -/
theorem left_shared : (enrolled shared).propagate.1 = none ∧ 1 ∈ (diagram shared).graph.layer 1 ∧
    0 ∈ (diagram shared).graph.layer 0 ∧ 0 ∈ (diagram shared).graph.outgoing 0 ∧
    4 ∈ (diagram shared).graph.outgoing ((diagram shared).graph.arc 0).child ∧
    ((diagram shared).graph.arc 4).child ∈ (diagram shared).graph.layer (plan shared).model.depth := by decide +kernel

/-- Where it is an up property there is a node for the value 2. -/
theorem left_hidden : (enrolled hidden).propagate.1 = none ∧ 1 < (plan hidden).model.depth ∧
    2 ∈ (diagram hidden).graph.layer 1 ∧
    ((plan hidden).model.view .down ((diagram hidden).graph.state 2 .down)).integer 0 = 2 := by decide +kernel

theorem plans_shared : shared.Plans (plan shared) :=
  ⟨.adjust (.property (.scope registered _ _) _ _ _ _) _ _,
    Spec.compile_eq_ok.2 ⟨checked.1, rfl⟩, rfl⟩

theorem plans_hidden : hidden.Plans (plan hidden) :=
  ⟨.adjust (.property (.scope registered _ _) _ _ _ _) _ _,
    Spec.compile_eq_ok.2 ⟨checked.2.1, rfl⟩, rfl⟩

theorem seesDown_low : SeesDown low := fun f g h => by
  unfold low
  rw [h]

theorem readsDown_low : ReadsDown 1 low := fun f g _ _ h => by
  unfold low
  rw [h.integer Nat.zero_lt_one]

theorem closed : alone.Closed where
  owned := by
    intro side i q hq
    have hs : (alone.properties.get side).toList = [] ∨ side = .down := by
      cases side <;> first | exact Or.inl rfl | exact Or.inr rfl
    rcases hs with hs | rfl
    · rw [← Array.getElem?_toList, hs] at hq
      cases hq
    · obtain rfl : i = 0 := Nat.lt_one_iff.1 (Array.getElem?_eq_some_iff.1 hq).1
      obtain rfl := Option.some.inj hq
      exact Nat.zero_lt_one
  transition := by
    intro i q reads run hq hrule x y values v w r hv hw _ hvw hr
    obtain rfl : i = 0 := Nat.lt_one_iff.1 (Array.getElem?_eq_some_iff.1 hq).1
    obtain rfl := Option.some.inj hq
    obtain ⟨-, rfl⟩ := Rule.transition.inj hrule
    obtain rfl := Except.ok.inj hr
    refine ⟨_, rfl, ?_⟩
    rw [View.mk_layout (View.writes_setInteger hv _ _).1, View.mk_layout (View.writes_setInteger hw _ _).1]
    exact hvw.setInteger hv hw Nat.zero_lt_one _
  combine := by
    intro i q reads run hq
    cases hq

theorem beside_shared : alone.Beside shared where
  branchVars := ⟨[], by rw [checked.2.2.1, checked.2.2.2.1]; rfl⟩
  scopes := ⟨[⟨"counter", [0, 1]⟩], rfl⟩
  properties side := by
    cases side
    · exact ⟨_, rfl⟩
    · exact ⟨[], rfl⟩
    · exact ⟨[], rfl⟩
  transition := by
    intro i q reads run hi hq hrule x values v r hv hr
    obtain rfl : i = 1 :=
      Nat.le_antisymm (Nat.lt_succ_iff.1 (Array.getElem?_eq_some_iff.1 hq).1) hi
    obtain rfl := Option.some.inj hq
    obtain ⟨-, rfl⟩ := Rule.transition.inj hrule
    obtain rfl := Except.ok.inj hr
    rw [View.mk_layout (View.writes_setInteger hv _ _).1]
    exact View.shows_setInteger hv (Nat.le_refl 1) _
  combine := by
    intro i q reads run _ hq
    cases hq

theorem beside_hidden : alone.Beside hidden where
  branchVars := ⟨[], by rw [checked.2.2.1, checked.2.2.2.2.1]; rfl⟩
  scopes := ⟨[⟨"counter", [0, 1]⟩], rfl⟩
  properties side := by
    cases side
    · exact ⟨[], rfl⟩
    · exact ⟨_, rfl⟩
    · exact ⟨[], rfl⟩
  transition := by
    intro i q reads run hi hq
    exact absurd (Array.getElem?_eq_some_iff.1 hq).1 (Nat.not_lt.2 hi)
  combine := by
    intro i q reads run _ hq
    cases hq

theorem run_started : ∃ h, Run .free h Alternating.started ∧ h.calm = true := by
  have h₁ : ({} : Solver).addVariable (some Alternating.domain) = .ok (0, Alternating.first) := rfl
  have h₂ : Alternating.first.addVariable (some Alternating.domain) = .ok (1, Alternating.started) :=
    rfl
  exact ⟨_, (Run.start.addVariable rfl h₁).addVariable rfl h₂, rfl⟩

theorem diagrams_posted (b : Spec) {h : Story Spec} (run : Run .free h Alternating.started) :
    (posted b).world.diagrams[0]? = some (diagram b) := by
  have paired := ((Solver.paired_of_run run).enrol rfl (plan b)).propagate
  obtain ⟨d, hd⟩ := Solver.diagram_of_planAt (paired _ (Or.inl rfl)) (Solver.planAt_propagate (enrolled b) 0)
  exact Lone.eq_some_getD (Option.isSome_of_eq_some hd) default

theorem starts {b : Spec} (hb : b.Plans (plan b)) (hd : b.branchVars.toList = [0, 1]) :
    Alternating.started.Starts .free (enrolled b) := by
  refine Or.inr ⟨b, plan b, hb, ⟨rfl, rfl, fun l hl => ?_⟩, rfl⟩
  have hv : (plan b).model.var l ∈ b.branchVars.toList :=
    Array.mem_toList_iff.2 (Model.var_mem hl)
  rw [hd] at hv
  rcases List.mem_pair.1 hv with e | e <;> rw [e] <;> decide

end Ceiling

theorem Run.nodes_pass_ceiling :
    (∀ f : NodeFacts, f.down = Ceiling.shared.toModel.view .down
      ((Ceiling.diagram Ceiling.shared).graph.state 1 .down) → Ceiling.low f = .ok true) ∧
    ∃ r, Ceiling.alone.toModel.reach 0 (Ceiling.alone.toModel.fresh .down)
        (((Ceiling.diagram Ceiling.shared).graph.labels [0, 4]).take 1) = .ok r ∧
      ∀ f : NodeFacts, f.down = Ceiling.alone.toModel.view .down r → Ceiling.low f = .ok true := by
  obtain ⟨-, -, -, vars, -, deep, down⟩ := Ceiling.checked
  obtain ⟨ended, node, root, first, second, sink⟩ := Ceiling.left_shared
  obtain ⟨h, run, calm⟩ := Ceiling.run_started
  have done : (Ceiling.enrolled Ceiling.shared).propagate = (none, Ceiling.posted Ceiling.shared) :=
    Prod.fst_eq_iff.1 ended
  have diagram := Ceiling.diagrams_posted Ceiling.shared run
  obtain ⟨nodes, paths⟩ := Run.nodes_pass (a := Ceiling.alone) run calm
    (Ceiling.starts Ceiling.plans_shared vars) done (p := Ceiling.plan Ceiling.shared)
    rfl diagram rfl Ceiling.plans_shared down
    (Array.mem_toList_iff.1 List.mem_cons_self) (List.Subset.refl _) Ceiling.seesDown_low
  refine ⟨nodes 1 1 node, ?_⟩
  exact paths Ceiling.registered Ceiling.closed Ceiling.beside_shared Ceiling.readsDown_low [0, 4]
    ⟨0, root, first, second, sink⟩ 1 deep

/-- If a rule of the rest computes up states, nodes need not pass the tests. -/
theorem Run.nodes_untested :
    ¬ ∀ (h : Story Spec) (s o t : Solver) (i : Nat) (p : Plan) (d : Diagram) (a b : Spec)
      (check : NodeFacts → Checked Bool), Run .free h s → h.calm = true → s.Starts .free o →
      o.propagate = (none, t) → o.planAt i = some p → t.world.diagrams[i]? = some d →
      p.options.maxWidth = none → b.Plans p → check ∈ a.nodeChecks →
      a.nodeChecks.toList ⊆ b.nodeChecks.toList → SeesDown check → a.Registered → a.Closed →
      a.Beside b → ReadsDown (a.count .down) check → ∀ l < p.model.depth, ∀ n ∈ d.graph.layer l,
      ∀ f : NodeFacts, f.down = p.model.view .down (d.graph.state n .down) → check f = .ok true := by
  intro general
  obtain ⟨-, -, -, -, vars, -⟩ := Ceiling.checked
  obtain ⟨ended, deep, node, high⟩ := Ceiling.left_hidden
  obtain ⟨h, run, calm⟩ := Ceiling.run_started
  have done : (Ceiling.enrolled Ceiling.hidden).propagate = (none, Ceiling.posted Ceiling.hidden) :=
    Prod.fst_eq_iff.1 ended
  have diagram := Ceiling.diagrams_posted Ceiling.hidden run
  have passes := general h _ _ _ 0 (Ceiling.plan Ceiling.hidden) _ Ceiling.alone _ Ceiling.low run calm
    (Ceiling.starts Ceiling.plans_hidden vars) done rfl diagram rfl
    Ceiling.plans_hidden (Array.mem_toList_iff.1 List.mem_cons_self) (List.Subset.refl _)
    Ceiling.seesDown_low Ceiling.registered Ceiling.closed Ceiling.beside_hidden
    Ceiling.readsDown_low 1 deep 2 node
    { down := (Ceiling.plan Ceiling.hidden).model.view .down
        ((Ceiling.diagram Ceiling.hidden).graph.state 2 .down),
      up := default, combined := default, layer := 1, numParents := 1, numChildren := 1 } rfl
  unfold Ceiling.low at passes
  dsimp only at passes
  rw [high] at passes
  exact absurd (Except.ok.inj passes) (by decide)

end DecisionDiagrams
