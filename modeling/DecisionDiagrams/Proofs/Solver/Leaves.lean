import DecisionDiagrams.Proofs.Engine.Screened
import DecisionDiagrams.Proofs.Solver.Fixpoint
import DecisionDiagrams.Proofs.Solver.Largest

/-! The leaves of a search. When every variable of a diagram is fixed, each layer has one label left. Then all
nodes of a layer have the states to which the labels lead, every arc passes its tests between these states,
and so the fixed assignment satisfies the constraints. -/

namespace DecisionDiagrams

open Work Cascade

/-! ### One label on each layer -/

/-- Every arc has the label of its layer. -/
def Graph.Pinned (g : Graph) (σ : Nat → Int) : Prop :=
  ∀ a, g.arcIsActive a = true → (g.arc a).value = σ (g.layerOf (g.arc a).parent)

namespace Obeys

variable {C : Code} {p : Plan} {stale : Nat → Prop} {d : Diagram} {s : Domains} {σ : Nat → Int} {n : NodeId}

theorem exists_arc {e : Direction} (h : Obeys C p stale d s) (on : d.graph.isActive n = true)
    (hi : Inner p.model.depth (d.workspace p s) e n) :
    ∃ a, d.graph.arcIsActive a = true ∧ endOn d.graph e a = n := by
  obtain ⟨a, ha⟩ := Array.exists_mem_of_ne_empty _ (h.arcsOn_ne on hi)
  exact ⟨a, (mem_arcsOn h.agrees.1.wf).1 ha⟩

/-- An arc leads from a node on one layer to a node on the next. -/
theorem child_of_arc (h : Obeys C p stale d s) {a : ArcId} (ha : d.graph.arcIsActive a = true) :
    d.graph.isActive (d.graph.arc a).child = true ∧
      d.graph.layerOf (d.graph.arc a).child = d.graph.layerOf (d.graph.arc a).parent + 1 := by
  obtain ⟨L, -, -, hlaw⟩ := h.lawful .down
  exact ⟨(hlaw.reached a ha).resolve_right List.not_mem_nil, h.agrees.1.wf.adjacent a ha⟩

/-- There is a node on every layer. -/
theorem exists_node (h : Obeys C p stale d s) : ∀ l ≤ p.model.depth,
    ∃ n, d.graph.isActive n = true ∧ d.graph.layerOf n = l := by
  intro l
  induction l with
  | zero =>
    intro _
    obtain ⟨L, -, -, hlaw⟩ := h.lawful .down
    obtain ⟨n, on, hl, -⟩ := hlaw.root
    exact ⟨n, on, hl⟩
  | succ l ih =>
    intro hl
    obtain ⟨n, on, rfl⟩ := ih (Nat.le_of_succ_le hl)
    obtain ⟨a, ha, rfl⟩ := h.exists_arc (e := .up) on hl
    exact ⟨_, h.child_of_arc ha⟩

/-- All nodes of a layer have the state to which the labels lead. -/
theorem exists_follows (h : Obeys .joined p stale d s) (hx : p.options.isExact = false)
    (pinned : d.graph.Pinned σ) : ∃ S : Nat → State, p.model.Follows σ S ∧
      ∀ n, d.graph.isActive n = true → ∀ i, p.model.Alike .down i (S (d.graph.layerOf n)) (d.graph.state n .down) := by
  have ht := h.agrees.1
  obtain ⟨L, -, -, hlaw⟩ := h.lawful .down
  have some_node : ∀ l, ∃ n, l ≤ p.model.depth → d.graph.isActive n = true ∧ d.graph.layerOf n = l := fun l => by
    by_cases hl : l ≤ p.model.depth
    · obtain ⟨n, hn⟩ := h.exists_node l hl
      exact ⟨n, fun _ => hn⟩
    · exact ⟨0, fun h => absurd h hl⟩
  choose N hN using some_node
  -- from the nodes of a layer to those of the next one
  have next : ∀ l, (∀ n, d.graph.isActive n = true → d.graph.layerOf n = l →
      ∀ i, p.model.Alike .down i (d.graph.state (N l) .down) (d.graph.state n .down)) →
      ∀ n, d.graph.isActive n = true → d.graph.layerOf n = l + 1 →
        ∀ i, p.model.Yields .down l (d.graph.state (N l) .down) (σ l) i (d.graph.state n .down) := by
    intro l same n on hl i
    have pos : 0 < d.graph.layerOf n := Nat.lt_of_lt_of_eq (Nat.succ_pos l) hl.symm
    obtain ⟨D, hD, least⟩ := h.least (e := .down) hx on pos
    obtain ⟨t, hyields⟩ := hD.total l (d.graph.state (N l) .down) (σ l) i
    have layer : (d.workspace p s).feedLayer .down n = l := by
      show d.graph.layerOf n - 1 = l
      rw [hl]
      rfl
    refine hyields.of_alike ((least i).alike hD.toDeclared ?_ fun q v hq => ?_).symm
    · obtain ⟨a, ha, hch⟩ := h.exists_arc (e := .down) on pos
      exact ⟨_, _, a, ha, hch, rfl, rfl⟩
    · obtain ⟨a, ha, rfl, rfl, rfl⟩ := hq
      have hpar : d.graph.layerOf (d.graph.arc a).parent = l :=
        Nat.succ.inj ((h.child_of_arc ha).2.symm.trans hl)
      have value : (d.graph.arc a).value = σ l := (pinned a ha).trans (congrArg σ hpar)
      rw [layer]
      show p.model.Yields .down l (d.graph.state (d.graph.arc a).parent .down) (d.graph.arc a).value i t
      rw [value]
      exact hD.yields_congr (fun j _ => same _ (ht.parent_active ha) hpar j) hyields
  have same : ∀ l ≤ p.model.depth, ∀ n, d.graph.isActive n = true → d.graph.layerOf n = l →
      ∀ i, p.model.Alike .down i (d.graph.state (N l) .down) (d.graph.state n .down) := by
    intro l
    induction l with
    | zero =>
      intro hl n on hlay i
      obtain ⟨r, -, -, only⟩ := hlaw.root
      obtain rfl : n = N 0 := (only n on hlay).trans (only _ (hN 0 hl).1 (hN 0 hl).2).symm
      exact .refl _ _ _ _
    | succ l ih =>
      intro hl n on hlay i
      have ih := ih (Nat.le_of_succ_le hl)
      obtain ⟨D, hD⟩ : ∃ D, p.model.Joined .down D := by
        obtain ⟨_, ⟨hD, -⟩, -, -⟩ := h.lawful .down
        exact hD
      exact hD.yields_unique (next l ih _ (hN _ hl).1 (hN _ hl).2 i) (next l ih n on hlay i)
  refine ⟨fun l => d.graph.state (N l) .down, ⟨fun i => ?_, fun {l} hl i => ?_⟩, fun n on i => ?_⟩
  · obtain ⟨on, hl⟩ := hN 0 (Nat.zero_le _)
    rw [← hlaw.seed _ on hl]
    exact .refl _ _ _ _
  · obtain ⟨on, hlay⟩ := hN (l + 1) (Nat.le_of_lt hl)
    exact next l (same l (Nat.le_of_succ_le (Nat.le_of_lt hl))) _ on hlay i
  · exact same _ (ht.toCensus.layerOf_le on) n on rfl i

/-- A property which no layer below computes is as it is at the sink. -/
theorem clear (h : Obeys .joined p stale d s) (hx : p.options.isExact = false)
    (ground : Grounded p (d.workspace p s)) (on : d.graph.isActive n = true) (i : Nat) :
    p.model.Clear (d.graph.layerOf n) i (d.graph.state n .up) := by
  have fresh : ∀ {n}, d.graph.isActive n = true → d.graph.layerOf n = p.model.depth ∨ p.model.hasUp = false →
      p.model.Alike .up i (p.model.fresh .up) (d.graph.state n .up) := fun {n} on hl => by
    have e : d.graph.state n .up = p.model.fresh .up := ground n (Graph.lt_of_isActive _ on) hl
    rw [e]
    exact .refl _ _ _ _
  induction hk : p.model.depth - d.graph.layerOf n generalizing n with
  | zero =>
    exact fun _ => fresh on (Or.inl (Nat.le_antisymm (h.agrees.1.toCensus.layerOf_le on) (Nat.le_of_sub_eq_zero hk)))
  | succ k ih =>
    intro idle
    have low : d.graph.layerOf n < p.model.depth := Nat.lt_of_sub_eq_succ hk
    cases hup : p.model.hasUp with
    | false => exact fresh on (Or.inr hup)
    | true =>
      obtain ⟨D, hD, least⟩ := h.least (e := .up) hx on ⟨hup, low, h.upKnown hx hup⟩
      refine ((least i).alike hD.toDeclared ?_ fun q v hq => ?_).symm
      · obtain ⟨a, ha, hpar⟩ := h.exists_arc (e := .up) on low
        exact ⟨_, _, a, ha, hpar, rfl, rfl⟩
      · obtain ⟨a, ha, rfl, rfl, rfl⟩ := hq
        obtain ⟨onc, hlay⟩ := h.child_of_arc ha
        change p.model.depth - d.graph.layerOf (d.graph.arc a).parent = _ at hk
        refine (hD.yields_idle (idle _ (Nat.le_refl _) low) _ _).of_alike (ih onc (by omega) fun l hl => ?_).symm
        rw [hlay] at hl
        exact idle l (Nat.le_of_succ_le hl)

/-- The label of an arc passes the tests of its layer. -/
theorem passes_of_arc (h : Obeys .joined p stale d s) (hx : p.options.isExact = false)
    (screened : AllScreened p (d.workspace p s)) {S : Nat → State} {a : ArcId} (ha : d.graph.arcIsActive a = true) {l : Nat}
    (hl : d.graph.layerOf (d.graph.arc a).parent = l)
    (same : ∀ i, p.model.Alike .down i (S l) (d.graph.state (d.graph.arc a).parent .down))
    (value : (d.graph.arc a).value = σ l) : ∀ check ∈ (p.model.rules l).arcChecks, p.model.Passes σ S l check := by
  subst hl
  intro check hcheck
  obtain ⟨onc, hlay⟩ := h.child_of_arc ha
  obtain ⟨t, up, hdown, hup, hpass⟩ := screened.arcs a ha id _ (fun _ => rfl) check hcheck
  refine ⟨t, up, fun i => (same i).trans (hdown i), fun u hu i idle => ?_, ?_⟩
  · exact (h.clear hx screened.ground onc i (hlay ▸ idle)).trans (hup u hu i)
  · rw [← value]
    exact hpass

/-- Between the states to which the labels lead, the labels pass all tests. -/
theorem passes (h : Obeys .joined p stale d s) (hx : p.options.isExact = false)
    (screened : AllScreened p (d.workspace p s)) (pinned : d.graph.Pinned σ) : ∃ S, p.model.Follows σ S ∧
      ∀ l < p.model.depth, ∀ check ∈ (p.model.rules l).arcChecks, p.model.Passes σ S l check := by
  obtain ⟨S, follows, same⟩ := h.exists_follows hx pinned
  refine ⟨S, follows, fun l hl => ?_⟩
  obtain ⟨n, on, rfl⟩ := h.exists_node l (Nat.le_of_lt hl)
  obtain ⟨a, ha, rfl⟩ := h.exists_arc (e := .up) on hl
  exact h.passes_of_arc hx screened ha rfl (same _ on) (pinned a ha)

end Obeys

/-! ### In every run -/

/-- The diagram obeys the laws by which its states are at the fixpoint, and if it has a width, every arc passes
its tests. -/
def Screens : Standing := fun p stale d s =>
  Obeys .joined p stale d s ∧ (p.options.isExact = false → AllScreened p (d.workspace p s))

theorem Screens.propagate {p : Plan} {stale : Nat → Prop} {d : Diagram} {s : Domains}
    (hg : p.Governed .joined s) (hm : p.model.Frugal) (fuel : Nat) (lost : List Nat)
    (h : d.built = true ∧ Screens p stale d s ∨ d = Diagram.initial p.model)
    (hstop : (d.propagate p fuel lost s).stop = none) (hx : p.options.isExact = false) :
    AllScreened p ((d.propagate p fuel lost s).diagram.workspace p (d.propagate p fuel lost s).domains) := by
  have hwp : wp (if p.options.isExact then maintainExact p lost else maintainRelaxed p fuel lost)
      (fun _ w' => AllScreened p w') (fun _ _ => True) (d.workspace p s) := by
    rw [hx, if_neg Bool.false_ne_true]
    rcases h with ⟨hb, hobeys, hscreened⟩ | rfl
    · obtain ⟨L, -, -, hlaw⟩ := hobeys.lawful .down
      exact wp_maintainRelaxed_screened hg.distinct hx hg.valid hg.readsOwn hm fuel lost hobeys.agrees.1
        (Or.inl ⟨hb, hlaw⟩) fun _ => ⟨hscreened hx, hobeys.upKnown hx⟩
    · obtain ⟨L, -, allows⟩ := hg.laws .down
      exact wp_maintainRelaxed_screened hg.distinct hx hg.valid hg.readsOwn hm fuel lost
        (tidy_initial p (fun _ => False) s) (Or.inr ⟨rfl, rfl, ⟨_, rfl⟩, Obeys.sized _ _ _, allows⟩) nofun
  obtain ⟨w', hd, hs, hok, -⟩ := Diagram.propagate_of_wp hwp
  rw [hd, hs]
  exact (hok hstop).congr rfl

theorem Screens.upheld {β : Type} {R : Rules β}
    (hR : ∀ s b p, R.plan s b p → p.Governed .joined s.domains ∧ p.model.Frugal) :
    R.Upholds (fun _ _ => False) (fun _ _ => False) Screens := by
  have governed := fun s b p h => (hR s b p h).1
  have obeys : R.Upholds (fun _ _ => False) (fun _ _ => False) (Obeys .joined) := Obeys.upheld governed
  have frugal : ∀ {p s}, R.Fits p s → p.model.Frugal := fun ⟨b, r, hp, _⟩ => (hR r b _ hp).2
  exact {
    under := obeys.under
    known := obeys.known
    distinct := obeys.distinct
    accepted := fun _ _ h => h
    adapt := fun h hle hst hlost => ⟨obeys.adapt h.1 hle hst hlost, fun hx => (h.2 hx).congr rfl⟩
    first := by
      intro p s fuel lost hfits
      have h := obeys.first fuel lost hfits
      exact { h with stands := fun hstop => ⟨h.stands hstop, @Screens.propagate p (fun _ => False) _ s
        (hfits.governed governed) (frugal hfits) fuel lost (Or.inr rfl) hstop⟩ }
    again := by
      intro p stale d s fuel lost hfits hb hs
      have h := obeys.again fuel lost hfits hb hs.1
      exact { h with stands := fun hstop => ⟨h.stands hstop, Screens.propagate
        (hfits.governed governed) (frugal hfits) fuel lost (Or.inl ⟨hb, hs⟩) hstop⟩ } }

/-- If checkpoints are only opened when no change waits to be told, no layer of a diagram is stale after a
propagation. -/
theorem Run.stands_current {β : Type} {R : Rules β} {solves : β → (Var → Int) → Prop}
    {accepts : Plan → (Var → Int) → Prop} {P : Standing} (hP : R.Upholds solves accepts P)
    (opens : ∀ s, R.opens s → s.domains.changed = #[]) {h : Story β} {s : Solver} (run : Run R h s)
    (calm : h.calm = true) {o t : Solver} (starts : s.Starts R o) (done : o.propagate = (none, t)) {i : Nat}
    {p : Plan} {d : Diagram} (plan : t.planAt i = some p) (diagram : t.world.diagrams[i]? = some d) :
    P p (fun _ => False) d t.domains := by
  obtain ⟨kept, alive⟩ := run.kept_of_starts hP calm starts
  obtain ⟨hk, hq, settled, -, -⟩ := kept.propagate hP.toUpheld alive done
  refine hP.toUpheld.weaken (run.stands_of_propagate hP calm starts done plan diagram) ?_
  rintro l - (hl | hl | hl)
  · exact (run.nothing_forgotten hP opens).1 _ hl.1
  · have listed := hk.listed i (List.ne_nil_of_mem hl)
    rw [hq] at listed
    cases listed
  · rw [settled] at hl
    exact Array.not_mem_empty _ hl

/-- The plans of library constraints with valid options, of any width or of none. Checkpoints are only opened
when no change waits to be told. -/
def Rules.disciplined : Rules Posting where
  plan s b p := Rules.library.plan s b p
  opens s := s.domains.changed = #[]

namespace Rules.disciplined

variable {s : Solver} {b : Posting} {p : Plan}

theorem ruled (h : Rules.disciplined.plan s b p) : ∀ c ∈ b.constraints,
    c.Ruled ∧ c.registrable s.domains = true ∧ c.malformed? = none :=
  fun c hc => ⟨(h.2.2.1 c hc).1.ruled, (h.2.2.1 c hc).2⟩

theorem frugal (h : Rules.disciplined.plan s b p) : p.model.Frugal := by
  have hruled := ruled h
  obtain ⟨hcheck, e⟩ := Spec.compile_eq_ok.1 h.2.2.2
  rw [← e]
  exact ⟨(Spec.tame_ofConstraints fun c hc => (hruled c hc).1).hasCombined,
    ((Spec.local_of_ruled hruled).plain hcheck).nodeChecks⟩

theorem upholds_screens : Rules.disciplined.Upholds (fun _ _ => False) (fun _ _ => False) Screens :=
  Screens.upheld fun _ _ _ h => ⟨Rules.ruled_governed (Rules.ruled_of_library h), frugal h⟩

theorem upholds_enumerates : Rules.disciplined.Upholds (fun _ _ => False) (fun _ _ => False) Enumerates :=
  Enumerates.upheld fun _ _ _ h => ⟨Rules.library_distinct h, h.2.1⟩

end Rules.disciplined

/-- No variable of the constraints has a value but that of the assignment. -/
def Posting.Fixed (b : Posting) (s : Domains) (σ : Var → Int) : Prop :=
  ∀ c ∈ b.constraints, ∀ x ∈ c.scope, ∀ v, s.contains x v = true → v = σ x

section

variable {r : Solver} {b : Posting} {p : Plan} {d : Diagram} {s : Domains} {σ τ : Var → Int}

theorem Rules.disciplined.exists_layer (plan : Rules.disciplined.plan r b p) {x : Var} :
    (∃ c ∈ b.constraints, x ∈ c.scope) ↔ ∃ l < p.model.depth, p.model.var l = x :=
  Spec.exists_layer (fun c hc => (ruled plan c hc).1) plan.2.2.2

/-- Assignments in the domains have the fixed values. -/
theorem Posting.Fixed.eq_of_within (fixed : b.Fixed s σ) (plan : Rules.disciplined.plan r b p)
    (known : ∀ l < p.model.depth, p.model.var l < s.size) (within : Within τ s) {c : Constraint}
    (hc : c ∈ b.constraints) {x : Var} (hx : x ∈ c.scope) : τ x = σ x := by
  obtain ⟨l, hl, rfl⟩ := (Rules.disciplined.exists_layer plan).1 ⟨c, hc, hx⟩
  exact fixed c hc _ hx _ (within _ (known l hl))

/-- The arcs of a diagram whose variables are fixed have the labels of the assignment. -/
theorem Posting.Fixed.pinned (fixed : b.Fixed s σ) (plan : Rules.disciplined.plan r b p)
    (ht : Tidy p (fun _ => False) [] (d.workspace p s)) : d.graph.Pinned (p.model.labelsOf σ) := by
  intro a ha
  obtain ⟨c, hc, hx⟩ := (Rules.disciplined.exists_layer plan).2 ⟨_, ht.toCensus.parent_lt_depth ha, rfl⟩
  exact fixed c hc _ hx _ (ht.inDomain a ha id)

/-- Between the states of a diagram with a width, the labels of the fixed assignment pass all tests. -/
theorem Screens.solved (h : Screens p (fun _ => False) d s) (hx : p.options.isExact = false)
    (plan : Rules.disciplined.plan r b p) (under : Under r.domains s)
    (known : ∀ l < p.model.depth, p.model.var l < s.size) (fixed : b.Fixed s σ) :
    ∀ c ∈ b.constraints, c.Holds p.model.branchVars.toList σ := by
  obtain ⟨τ, within⟩ := Spec.exists_values s
  have same : ∀ {c}, c ∈ b.constraints → ∀ x ∈ c.scope, τ x = σ x := fun hc x hx =>
    fixed.eq_of_within plan known within hc hx
  have fixed : b.Fixed s τ := fun c hc x hx v hv => (fixed c hc x hx v hv).trans (same hc x hx).symm
  obtain ⟨S, follows, passes⟩ := h.1.passes hx (h.2 hx) (fixed.pinned plan h.1.agrees.1)
  have holds := Spec.holds_of_passes plan.2.2.1 plan.2.2.2
    (fun x hx => under.contains x hx _ (within x (Nat.lt_of_lt_of_le hx under.size))) follows passes
  exact fun c hc => Constraint.holds_congr (same hc) (holds c hc)

/-- A diagram without a width has a path, and the labels of a path are those of a solution. -/
theorem Enumerates.solved (h : Enumerates p (fun _ => False) d s) (hx : p.options.isExact = true)
    (plan : Rules.disciplined.plan r b p) (under : Under r.domains s)
    (known : ∀ l < p.model.depth, p.model.var l < s.size) (fixed : b.Fixed s σ) :
    ∀ c ∈ b.constraints, c.Holds p.model.branchVars.toList σ := by
  have faithful := h.2 hx (Rules.disciplined.frugal plan).nodeChecks
  obtain ⟨vs, hvs⟩ := faithful.nonempty h.1.1
  obtain ⟨τ, within, -, holds⟩ := Spec.holds_of_tuple plan.2.2.1 plan.2.2.2
    (fun x hx => ⟨Nat.lt_of_lt_of_le hx under.size, under.contains x hx⟩) hvs
  exact fun c hc => Constraint.holds_congr (fun x hx => fixed.eq_of_within plan known within hc hx) (holds c hc)

end

/-- In every run over library constraints, as soon as all variables of the scopes are fixed, a propagation only
succeeds if the fixed assignment satisfies the constraints. -/
theorem Run.leaf_solved {h : Story Posting} {s : Solver} (run : Run .disciplined h s) (calm : h.calm = true)
    {o t : Solver} {posted : List Posting} (begins : h.Begins .disciplined s o posted)
    (done : o.propagate = (none, t)) {b : Posting} (hb : b ∈ posted) {σ : Var → Int} (fixed : b.Fixed t.domains σ) :
    b.Solved σ := by
  have hP := Rules.disciplined.upholds_screens
  obtain ⟨kept, alive⟩ := run.kept_of_starts hP calm begins.starts
  obtain ⟨hk, -, -, progress, -⟩ := kept.propagate hP.toUpheld alive done
  obtain ⟨i, p, hplan, r, plan, known, hu⟩ := (begins.made (run.consistent hP) calm).2 b hb
  obtain rfl : b.plan = p := plan.1
  have hplan : t.planAt i = some b.plan := (progress.plan i).trans hplan
  obtain ⟨d, hd⟩ := Solver.diagram_of_planAt hk.paired hplan
  have under : Under r.domains t.domains :=
    hu.trans ⟨Nat.le_of_eq progress.size.symm, fun x _ v hv => progress.contains x v hv⟩
  have known : ∀ l < b.plan.model.depth, b.plan.model.var l < t.domains.size := fun l hl =>
    Nat.lt_of_lt_of_le (known l hl) under.size
  cases hx : b.plan.options.isExact with
  | true =>
    exact (run.stands_current Rules.disciplined.upholds_enumerates (fun _ h => h) calm begins.starts done hplan
      hd).solved hx plan under known fixed
  | false =>
    exact (run.stands_current hP (fun _ h => h) calm begins.starts done hplan hd).solved hx plan under known fixed

/-! Two variables in 1 and 2 which have to be different, in a diagram of width one. The first one is set to 1, and
the propagation fixes the second one. -/

theorem Narrow.run_disciplined : ∃ h : Story Posting, Run .disciplined h Narrow.assigned ∧ h.calm = true ∧
    ⟨constraints, plan⟩ ∈ h.posted := by
  have h₁ : ({} : Solver).addVariable (some domain) = .ok (0, first) := rfl
  have h₂ : first.addVariable (some domain) = .ok (1, started) := rfl
  have made : Rules.disciplined.plan started ⟨constraints, plan⟩ plan := planned
  have run := ((Run.start (R := Rules.disciplined)).addVariable rfl h₁).addVariable rfl h₂
  exact ⟨_, (run.post rfl made eq_posted).restrict rfl assign_posted, rfl, List.mem_cons_self⟩

theorem Run.leaf_solved_narrow : Narrow.assigned.propagate.1 = none ∧
    (⟨Narrow.constraints, Narrow.plan⟩ : Posting).Fixed Narrow.assigned.propagate.2.domains Narrow.solution ∧
    (⟨Narrow.constraints, Narrow.plan⟩ : Posting).Solved Narrow.solution := by
  obtain ⟨h, run, calm, hb⟩ := Narrow.run_disciplined
  obtain ⟨-, -, -, -, ok, values⟩ := Narrow.answers
  have done : Narrow.assigned.propagate = (none, Narrow.assigned.propagate.2) := Prod.fst_eq_iff.1 ok
  have fixed : (⟨Narrow.constraints, Narrow.plan⟩ : Posting).Fixed Narrow.assigned.propagate.2.domains
      Narrow.solution := by
    intro c hc x hx v hv
    obtain rfl := List.mem_singleton.1 hc
    rw [← Domains.mem_values] at hv
    have hx : x = 0 ∨ x = 1 := by simpa [Constraint.scope] using hx
    obtain rfl | rfl := hx
    · rw [values.1] at hv
      exact List.mem_singleton.1 hv
    · rw [values.2] at hv
      exact List.mem_singleton.1 hv
  exact ⟨ok, fixed, Run.leaf_solved run calm (Or.inl ⟨rfl, rfl⟩) done hb fixed⟩

end DecisionDiagrams
