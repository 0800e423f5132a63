import DecisionDiagrams.Proofs.Engine.Sharpening
import DecisionDiagrams.Proofs.Solver.Assignments
import DecisionDiagrams.Proofs.Solver.Excursions
import DecisionDiagrams.Proofs.Solver.Leaves

/-! Relaxed diagrams with room for everything. If the width is larger than the number of assignments and the budget
is large enough, the first propagation splits until no node stands for two states, and later ones only take
words away. So the diagram represents the solutions in the domains, as one without a width does. -/

namespace DecisionDiagrams

open Work Cascade

/-! ### The first propagation -/

/-- The number of assignments of the variables of a plan. -/
def Plan.assignmentCount (p : Plan) (s : Domains) : Nat :=
  ∏ l ∈ Finset.range p.model.depth, (s.values (p.model.var l)).length

/-- The options leave room for a node of every word of labels, and passes which split for states. -/
structure Plan.Roomy (p : Plan) (s : Domains) : Prop where
  split : p.options.split = .exactState
  splits : 0 < p.options.splitPasses
  width : ∃ k, p.options.maxWidth = some k ∧ p.assignmentCount s < k
  budget : p.model.depth * p.assignmentCount s < p.options.budget

namespace Plan.Roomy

variable {p : Plan} {r : Domains}

theorem isExact (h : p.Roomy r) : p.options.isExact = false := by
  obtain ⟨k, hk, -⟩ := h.width
  unfold Options.isExact
  rw [hk]
  rfl

/-- The first propagation of such a diagram, on domains within those it was made for. -/
theorem discerns (h : p.Roomy r) (hm : p.model.Joined .down fun l v => r.contains (p.model.var l) v = true)
    (hp : p.Distinct) (hv : p.options.isValid = true) (hr : p.model.ReadsOwn)
    (known : ∀ l < p.model.depth, p.model.var l < r.size) {s : Domains} (hu : Under r s) (fuel : Nat) (lost : List Nat)
    (hstop : ((Diagram.initial p.model).propagate p fuel lost s).stop = none) :
    ((Diagram.initial p.model).propagate p fuel lost s).diagram.graph.Discerns p.model p.model.depth := by
  let V : Nat → Finset Int := fun l => (r.values (p.model.var l)).toFinset
  have mem : ∀ {l v}, v ∈ V l ↔ r.contains (p.model.var l) v = true := List.mem_toFinset.trans Domains.mem_values
  have pos : ∀ l < p.model.depth, 0 < (V l).card := fun l hl => by
    obtain ⟨τ, hτ⟩ := Spec.exists_values r
    exact Finset.card_pos.2 ⟨_, mem.2 (hτ _ (known l hl))⟩
  have bound : ∀ l, ((wordsUpTo V p.model.depth).filter fun vs => vs.length = l).card ≤ p.assignmentCount r := fun l =>
    (card_wordsUpTo_le pos l).trans (Finset.prod_le_prod' fun _ _ => List.toFinset_card_le _)
  obtain ⟨k, hk, hwidth⟩ := h.width
  have within : ∀ {w'}, Lawful (Law.joined hm) p.model.depth {} ([], w') → w'.graph.Wf →
      ∀ n vs, w'.graph.Spells n vs → vs ∈ wordsUpTo V p.model.depth := by
    intro w' hlaw hw n vs hvs
    exact Finset.mem_biUnion.2 ⟨_, Finset.mem_range.2 (Nat.lt_succ_of_le (hlaw.low n (hvs.lt_size hw))),
      hvs.mem_wordsOver hw fun a ha => mem.2 (hlaw.labelled a ha)⟩
  have hwp : wp (if p.options.isExact then maintainExact p lost else maintainRelaxed p fuel lost)
      (fun _ w' => w'.graph.Discerns p.model p.model.depth) (fun _ _ => True)
      ((Diagram.initial p.model).workspace p s) := by
    rw [h.isExact, if_neg Bool.false_ne_true]
    refine wp_maintainRelaxed_discerns hm hp h.isExact hv hr h.split h.splits bound (hk ▸ hwidth) h.budget fuel lost
      rfl rfl rfl (Obeys.sized _ _ _) (fun l hl v hv => hu.contains _ (known l hl) v hv) within
      (tidy_initial p (fun _ => False) s) (Diagram.suits_workspace _ p s)
  obtain ⟨w', hd, -, hok, -⟩ := Diagram.propagate_of_wp hwp
  rw [hd]
  exact hok hstop

end Plan.Roomy

/-! ### The labels of paths -/

/-- Nodes from the root to the sink, each joined to the next one by an arc with the label of its layer. -/
structure Graph.Route (g : Graph) (depth : Nat) (σ : Nat → Int) (N : Nat → NodeId) : Prop where
  active : g.isActive (N 0) = true
  layerOf : g.layerOf (N 0) = 0
  arc : ∀ l < depth, ∃ a, g.arcIsActive a = true ∧ (g.arc a).parent = N l ∧ (g.arc a).child = N (l + 1) ∧
    (g.arc a).value = σ l

namespace Graph

variable {g : Graph} {depth : Nat} {σ : Nat → Int} {N : Nat → NodeId}

theorem IsPath.exists_nodes (hw : g.Wf) : ∀ {as : List ArcId} {n : NodeId} {l : Nat}, g.IsPath depth n as →
    g.layerOf n = l → l + as.length = depth ∧ ∃ N : Nat → NodeId, N l = n ∧
      ∀ i v, (g.labels as)[i]? = some v → ∃ a, g.arcIsActive a = true ∧ (g.arc a).parent = N (l + i) ∧
        (g.arc a).child = N (l + i + 1) ∧ (g.arc a).value = v
  | [], n, l, h, hl => ⟨hl.symm.trans (hw.mem_layer.1 h).2, fun _ => n, rfl, nofun⟩
  | a :: as, n, l, h, hl => by
    obtain ⟨on, hp⟩ := hw.mem_outgoing.1 h.1
    obtain ⟨hlen, N, hN, hall⟩ := exists_nodes hw (l := l + 1) h.2 (by rw [hw.adjacent a on, hp, hl])
    have later : ∀ {k}, l < k → Function.update N l n k = N k := fun hk => Function.update_of_ne (Nat.ne_of_gt hk) _ _
    refine ⟨by rw [List.length_cons]; omega, Function.update N l n, Function.update_self .., fun i v hv => ?_⟩
    cases i with
    | zero =>
      obtain rfl := Option.some.inj hv
      refine ⟨a, on, ?_, ?_, rfl⟩
      · rw [Nat.add_zero, Function.update_self, hp]
      · rw [Nat.add_zero, later (Nat.lt_succ_self l), hN]
    | succ i =>
      obtain ⟨b, hb, hpar, hch, hval⟩ := hall i v hv
      refine ⟨b, hb, ?_, ?_, hval⟩
      · rw [later (by omega), hpar, Nat.add_right_comm, Nat.add_assoc]
      · rw [later (by omega), hch, Nat.add_right_comm l 1 i, Nat.add_assoc l i 1]

/-- The arcs of a path from the root to the sink make a route. -/
theorem IsFullPath.route (hw : g.Wf) {as : List ArcId} (h : g.IsFullPath depth as)
    (hσ : ∀ l < depth, (g.labels as)[l]? = some (σ l)) : ∃ N, g.Route depth σ N := by
  obtain ⟨n, hn, hp⟩ := h
  obtain ⟨on, hl⟩ := hw.mem_layer.1 hn
  obtain ⟨-, N, rfl, hall⟩ := hp.exists_nodes hw hl
  refine ⟨N, on, hl, fun l hl => ?_⟩
  have := hall l _ (hσ l hl)
  rwa [Nat.zero_add] at this

namespace Route

theorem layerOf_eq (h : g.Route depth σ N) (hw : g.Wf) : ∀ l ≤ depth, g.layerOf (N l) = l
  | 0, _ => h.layerOf
  | l + 1, hl => by
    obtain ⟨a, ha, hpar, hch, -⟩ := h.arc l hl
    rw [← hch, hw.adjacent a ha, hpar, h.layerOf_eq hw l (Nat.le_of_succ_le hl)]

/-- The labels of the first layers, the last one first, are a word of the node on the next layer. -/
theorem spells (h : g.Route depth σ N) : ∀ l ≤ depth, g.Spells (N l) ((List.range l).reverse.map σ)
  | 0, _ => ⟨h.active, h.layerOf⟩
  | l + 1, hl => by
    obtain ⟨a, ha, hpar, hch, hv⟩ := h.arc l hl
    rw [List.range_succ, List.reverse_append, List.map_append]
    exact ⟨a, ha, hch, hv, hpar ▸ h.spells l (Nat.le_of_succ_le hl)⟩

end Route
end Graph

/-- The labels of a path are values of the variables of the layers. -/
theorem Tidy.labels_of_path {p : Plan} {w : Workspace} (ht : Tidy p (fun _ => False) [] w) {as : List ArcId}
    (h : w.graph.IsFullPath p.model.depth as) : (w.graph.labels as).length = p.model.depth ∧
      ∀ l v, (w.graph.labels as)[l]? = some v → w.domains.contains (p.model.var l) v = true := by
  have length : (w.graph.labels as).length = p.model.depth := by
    obtain ⟨n, hn, hp⟩ := h
    rw [Graph.labels, List.length_map, ← (hp.exists_nodes ht.wf (ht.wf.mem_layer.1 hn).2).1, Nat.zero_add]
  refine ⟨length, fun l v hv => ?_⟩
  obtain ⟨N, route⟩ := h.route (σ := fun l => (w.graph.labels as).getD l 0) ht.wf fun l hl => by
    rw [List.getElem?_eq_getElem (length.symm ▸ hl), List.getD_eq_getElem]
  have hl : l < p.model.depth := length ▸ (List.getElem?_eq_some_iff.1 hv).1
  obtain ⟨a, ha, hpar, -, hval⟩ := route.arc l hl
  have inDomain := ht.inDomain a ha id
  rw [hval, hpar, route.layerOf_eq ht.wf l (Nat.le_of_lt hl), List.getD_eq_getElem?_getD, hv] at inDomain
  exact inDomain

namespace Obeys

variable {p : Plan} {stale : Nat → Prop} {d : Diagram} {s : Domains} {σ : Nat → Int} {N : Nat → NodeId}

/-- If the diagram tells states apart, the states on a route are those to which its labels lead. -/
theorem follows_route (h : Obeys .joined p stale d s) (hx : p.options.isExact = false)
    (discerns : d.graph.Discerns p.model p.model.depth) (route : d.graph.Route p.model.depth σ N) :
    p.model.Follows σ fun l => d.graph.state (N l) .down := by
  have ht := h.agrees.1
  obtain ⟨L, ⟨⟨D, hD⟩, -⟩, -, hlaw⟩ := h.lawful .down
  have precise : ∀ l < p.model.depth, d.graph.Precise p.model (N l) := by
    intro l hl
    obtain ⟨a, ha, hpar, -⟩ := route.arc l hl
    refine precise_of_uniform hD.toDeclared hlaw ht (fun n k on hn i => ?_) discerns (hpar ▸ ht.parent_active ha)
      (Nat.lt_of_le_of_lt (Nat.le_of_eq (route.layerOf_eq ht.wf l (Nat.le_of_lt hl))) hl)
    obtain ⟨D', hD', least⟩ := h.least (e := .down) hx on (Nat.lt_of_lt_of_eq (Nat.succ_pos k) hn.symm)
    have hf : (d.workspace p s).feedLayer .down n = k := by
      show d.graph.layerOf n - 1 = k
      rw [show d.graph.layerOf n = k + 1 from hn]
      rfl
    exact hf ▸ least i
  refine ⟨fun i => ?_, fun {l} hl i => ?_⟩
  · rw [← hlaw.seed (N 0) route.active route.layerOf]
    exact .refl _ _ _ _
  · have above := precise l (Nat.lt_of_succ_lt hl) _ (route.spells l (Nat.le_of_lt (Nat.lt_of_succ_lt hl)))
    have below := precise (l + 1) hl _ (route.spells (l + 1) (Nat.le_of_lt hl))
    rw [List.range_succ, List.reverse_append, List.map_append] at below
    obtain ⟨t, ht, hy⟩ : p.model.Means (σ l :: (List.range l).reverse.map σ) _ := below
    have hy := hy i
    rw [List.length_map, List.length_reverse, List.length_range] at hy
    exact hD.yields_congr (fun j _ => ht.unique hD.toDeclared above j) hy

/-- If the diagram tells states apart and its arcs pass their tests, the labels of a route pass all tests between the
states to which they lead. -/
theorem passes_route (h : Obeys .joined p stale d s) (hx : p.options.isExact = false)
    (screened : AllScreened p (d.workspace p s)) (discerns : d.graph.Discerns p.model p.model.depth)
    (route : d.graph.Route p.model.depth σ N) : ∃ S, p.model.Follows σ S ∧
      ∀ l < p.model.depth, ∀ check ∈ (p.model.rules l).arcChecks, p.model.Passes σ S l check := by
  refine ⟨_, h.follows_route hx discerns route, fun l hl => ?_⟩
  obtain ⟨a, ha, hpar, -, hv⟩ := route.arc l hl
  refine h.passes_of_arc hx screened ha (hpar ▸ route.layerOf_eq h.agrees.1.wf l (Nat.le_of_lt hl)) (fun i => ?_) hv
  rw [hpar]
  exact .refl _ _ _ _

end Obeys

/-! ### In every run -/

/-- The diagram is screened, and if it is one of the plan `q` it tells states apart. -/
def Resolves (q : Plan) : Standing := fun p stale d s =>
  Screens p stale d s ∧ (p = q → d.graph.Discerns p.model p.model.depth)

/-- A later propagation keeps states apart. -/
theorem Diagram.discerns_propagate {p : Plan} {stale : Nat → Prop} {d : Diagram} {s : Domains} (fuel : Nat)
    (lost : List Nat) (hb : d.built = true) (ht : Tidy p stale [] (d.workspace p s))
    (hd : d.graph.Discerns p.model p.model.depth) (hstop : (d.propagate p fuel lost s).stop = none) :
    (d.propagate p fuel lost s).diagram.graph.Discerns p.model p.model.depth := by
  have hwp := (traces_maintain (p := p) fuel lost (w := d.workspace p s) hb).discerns
    (filed_of_built hb ht.toCensus) hd
  obtain ⟨w', hw, -, hok, -⟩ := Diagram.propagate_of_wp hwp
  rw [hw]
  exact (hok hstop).2

/-- The plans of library constraints with valid options, where the plan `q` has room for everything. Checkpoints are
only opened when no change waits to be told. -/
def Rules.roomy (q : Plan) : Rules Posting where
  plan s b p := Rules.library.plan s b p ∧ (p = q → p.Roomy s.domains)
  opens s := s.domains.changed = #[]

namespace Rules.roomy

variable {q : Plan}

theorem upholds_screens : (Rules.roomy q).Upholds (fun _ _ => False) (fun _ _ => False) Screens :=
  Screens.upheld fun _ _ _ h => ⟨Rules.ruled_governed (Rules.ruled_of_library h.1), Rules.disciplined.frugal h.1⟩

theorem upholds_sustains : (Rules.roomy q).Upholds Posting.Solved Certified Sustains :=
  Sustains.upheld (fun _ _ _ h => ⟨Rules.library_distinct h.1, h.1.2.1⟩) fun ⟨r, h, known, hu⟩ hσ hsolved =>
    Rules.library_upholds.accepted ⟨r, h.1, known, hu⟩ hσ hsolved

/-- In all runs the diagrams of the plan tell states apart. -/
theorem upholds_resolves : (Rules.roomy q).Upholds (fun _ _ => False) (fun _ _ => False) (Resolves q) := by
  have screens : (Rules.roomy q).Upholds (fun _ _ => False) (fun _ _ => False) Screens := upholds_screens
  exact {
    under := screens.under
    known := screens.known
    distinct := screens.distinct
    accepted := fun _ _ h => h
    adapt := fun h hle hst hlost => ⟨screens.adapt h.1 hle hst hlost, h.2⟩
    first := by
      intro p s fuel lost hfits
      have h := screens.first fuel lost hfits
      refine { h with stands := fun hstop => ⟨h.stands hstop, fun e => ?_⟩ }
      obtain ⟨b, r, ⟨hlib, hroomy⟩, known, hu⟩ := hfits
      have governed := Rules.ruled_governed (Rules.ruled_of_library hlib)
      have joined := Spec.joined_ofConstraints (fun c hc => ⟨(hlib.2.2.1 c hc).1.ruled, (hlib.2.2.1 c hc).2⟩)
        hlib.2.2.2 .down
      exact (hroomy e).discerns joined governed.distinct governed.valid governed.readsOwn known hu fuel lost hstop
    again := by
      intro p stale d s fuel lost hfits hb hs
      have h := screens.again fuel lost hfits hb hs.1
      exact { h with stands := fun hstop => ⟨h.stands hstop, fun e =>
        Diagram.discerns_propagate fuel lost hb hs.1.1.agrees.1 (hs.2 e) hstop⟩ } }

end Rules.roomy

namespace Resolves

variable {q : Plan} {b : Posting} {r : Solver} {d : Diagram} {s : Domains}

/-- The labels of a path are those of a solution in the domains. -/
theorem solved (h : Resolves b.plan b.plan (fun _ => False) d s) (plan : (Rules.roomy b.plan).plan r b b.plan)
    (under : Under r.domains s) {vs : List Int} (hvs : vs ∈ d.graph.assignments b.plan.model.depth) :
    ∃ σ, Within σ s ∧ b.Solved σ ∧ b.plan.model.branchVars.toList.map σ = vs := by
  have hx := (plan.2 rfl).isExact
  have ht := h.1.1.agrees.1
  obtain ⟨as, has, rfl⟩ := hvs
  obtain ⟨length, inDomain⟩ : (d.graph.labels as).length = b.plan.model.depth ∧ ∀ l v, (d.graph.labels as)[l]? = some v →
    s.contains (b.plan.model.var l) v = true := ht.labels_of_path has
  obtain ⟨σ, within, labels⟩ := Spec.exists_assignment (Rules.library_distinct plan.1) length inDomain
  obtain ⟨N, route⟩ := has.route (σ := b.plan.model.labelsOf σ) ht.wf labels
  obtain ⟨S, follows, passes⟩ := h.1.1.passes_route hx (h.1.2 hx) (h.2 rfl) route
  refine ⟨σ, within, ?_, ?_⟩
  · exact Spec.holds_of_passes plan.1.2.2.1 plan.1.2.2.2
      (fun x hx => under.contains x hx _ (within x (Nat.lt_of_lt_of_le hx under.size))) follows passes
  · refine List.ext_getElem? fun l => ?_
    by_cases hl : l < b.plan.model.depth
    · rw [labels l hl]
      have hl : l < b.plan.model.branchVars.size := hl
      simp [Model.var, hl]
    · rw [List.getElem?_eq_none (by simpa [Model.depth] using hl), List.getElem?_eq_none (by rw [length]; omega)]

end Resolves

/-- In every run over library constraints, after every successful propagation the assignments of a diagram with room for
everything are the solutions of its constraints in the domains. -/
theorem Run.assignments_of_roomy {b : Posting} {h : Story Posting} {s : Solver} (run : Run (.roomy b.plan) h s)
    (calm : h.calm = true) {o t : Solver} {posted : List Posting} (begins : h.Begins (.roomy b.plan) s o posted)
    (done : o.propagate = (none, t)) (hb : b ∈ posted) {i : Nat} {d : Diagram} (plan : t.planAt i = some b.plan)
    (diagram : t.world.diagrams[i]? = some d) : d.graph.assignments b.plan.model.depth =
      {vs | ∃ σ, Within σ t.domains ∧ b.Solved σ ∧ b.plan.model.branchVars.toList.map σ = vs} := by
  have hP : (Rules.roomy b.plan).Upholds _ _ (Resolves b.plan) := Rules.roomy.upholds_resolves
  obtain ⟨kept, alive⟩ := run.kept_of_starts hP calm begins.starts
  obtain ⟨-, -, -, progress, -⟩ := kept.propagate hP.toUpheld alive done
  obtain ⟨-, p, -, made⟩ := (begins.made (run.consistent hP) calm).2 b hb
  obtain ⟨r, made, known, hu⟩ := made
  obtain rfl : b.plan = p := made.1.1
  have under : Under r.domains t.domains :=
    hu.trans ⟨Nat.le_of_eq progress.size.symm, fun x _ v hv => progress.contains x v hv⟩
  refine Set.Subset.antisymm (fun vs hvs => ?_) ?_
  · exact (run.stands_current hP (fun _ h => h) calm begins.starts done plan diagram).solved made under hvs
  · rintro _ ⟨σ, within, solved, rfl⟩
    have sustains := run.stands_current Rules.roomy.upholds_sustains (fun _ h => h) calm begins.starts done plan diagram
    exact sustains.exists_path (Rules.roomy.upholds_sustains.accepted ⟨r, made, known, under⟩ within solved) fun l hl =>
      within _ (Nat.lt_of_lt_of_le (known l hl) under.size)

/-! Two variables in 1 and 2 which have to be different, in a diagram which is built with width one and may become five
nodes wide. The value 1 is assigned to the first of them. -/
namespace Spacious

def plan : Plan := { model := Narrow.spec.toModel, options := { maxWidth := some 5, construction := .widthOne } }

def posting : Posting := ⟨Narrow.constraints, plan⟩

def posted : Solver := (Narrow.started.addDiagram plan).2

def assigned : Solver := (posted.assign 0 1).toOption.getD posted

/-- How the operations are answered, and how large the diagram may become. -/
theorem answers : (plan.assignmentCount Narrow.started.domains < 5 ∧
      plan.model.depth * plan.assignmentCount Narrow.started.domains < plan.options.budget) ∧
    (Narrow.started.addDiagram plan).1 = .ok 0 ∧ (posted.assign 0 1).toOption.isSome = true ∧
    assigned.propagate.1 = none ∧ plan.model.branchVars.toList = [0, 1] ∧ plan.model.depth = 2 := by decide +kernel

theorem planned : (Rules.roomy plan).plan Narrow.started posting plan :=
  ⟨⟨rfl, rfl, Narrow.planned.2.2⟩, fun _ => ⟨rfl, by decide, ⟨5, rfl, answers.1.1⟩, answers.1.2⟩⟩

theorem add_started : Narrow.started.addDiagram plan = (.ok 0, posted) := Prod.fst_eq_iff.1 answers.2.1

theorem assign_posted : posted.assign 0 1 = .ok assigned := Lone.eq_ok_getD answers.2.2.1

theorem run_started : ∃ h : Story Posting, Run (.roomy plan) h Narrow.started ∧ h.calm = true := by
  have h₁ : ({} : Solver).addVariable (some Narrow.domain) = .ok (0, Narrow.first) := rfl
  have h₂ : Narrow.first.addVariable (some Narrow.domain) = .ok (1, Narrow.started) := rfl
  exact ⟨_, (Run.start.addVariable rfl h₁).addVariable rfl h₂, rfl⟩

theorem run_assigned : ∃ h : Story Posting, Run (.roomy plan) h assigned ∧ h.calm = true ∧ posting ∈ h.posted := by
  obtain ⟨h, run, calm⟩ := run_started
  exact ⟨_, (run.post calm planned add_started).restrict calm assign_posted, calm, List.mem_cons_self⟩

/-- Neither posting nor assigning nor propagating changes which plan a diagram has. -/
theorem planAt_propagated {t : Solver} (done : assigned.propagate = (none, t)) : t.planAt 0 = some plan := by
  have same := Solver.planAt_propagate assigned 0
  rw [done] at same
  have before : posted.planAt Narrow.started.entries.size = some plan := Solver.planAt_of_addDiagram add_started
  rw [same, Solver.planAt_of_restrict assign_posted]
  exact before

end Spacious

theorem Run.assignments_of_roomy_spacious : Spacious.assigned.propagate.1 = none ∧
    ((Spacious.assigned.propagate.2.world.diagrams[0]?).getD default).graph.assignments 2 =
      {vs | ∃ σ, Within σ Spacious.assigned.propagate.2.domains ∧ Spacious.posting.Solved σ ∧ [0, 1].map σ = vs} := by
  obtain ⟨-, -, -, ok, vars, depth⟩ := Spacious.answers
  obtain ⟨h, run, calm, hb⟩ := Spacious.run_assigned
  have done : Spacious.assigned.propagate = (none, Spacious.assigned.propagate.2) := Prod.fst_eq_iff.1 ok
  have diagram := Solver.diagram_eq_getD (run.propagate calm done) (Spacious.planAt_propagated done) default
  have assignments := Run.assignments_of_roomy (b := Spacious.posting) run calm (Or.inl ⟨rfl, rfl⟩) done hb
    (Spacious.planAt_propagated done) diagram
  rw [show Spacious.posting.plan = Spacious.plan from rfl, vars, depth] at assignments
  exact ⟨ok, assignments⟩

end DecisionDiagrams
