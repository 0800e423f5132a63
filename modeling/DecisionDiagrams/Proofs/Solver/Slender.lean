import DecisionDiagrams.Proofs.Engine.Course
import DecisionDiagrams.Proofs.Solver.Everywhere
import DecisionDiagrams.Proofs.Solver.Labels
import Mathlib.Logic.Relation

/-! The width of diagrams. A propagation is a sequence of single edits, and after each of them every layer
has at most as many nodes as the plan allows and the last one at most one. Once the diagram is built, every
node which is created is split off another one, and these are no more than the budget. This holds however the
propagation ends, and of the diagrams of a solver at any time. -/

namespace DecisionDiagrams

open Work Relation

/-- No layer has more nodes than the plan allows, and the last one has at most one. -/
structure Graph.Slender (p : Plan) (g : Graph) : Prop where
  width : ∀ k, p.options.maxWidth = some k → 1 ≤ k → ∀ l, g.width l ≤ k
  sink : g.width p.model.depth ≤ 1

/-- One edit of a diagram which is being built or refined, after which the diagram is within its width and the
propagation within its budget. -/
def Edits (p : Plan) (kind : Edit.Kind) (a b : Workspace) : Prop :=
  ∃ e : Edit, (e.kind = .calm ∨ e.kind = kind) ∧ e.Fits p a ∧ e.apply a = b ∧ b.graph.Slender p ∧
    b.counters.nodesSplit ≤ p.options.budget

theorem Edits.along {p : Plan} {kind : Edit.Kind} {I : Workspace → Prop} {a b : Workspace}
    (step : ∀ w (e : Edit), (e.kind = .calm ∨ e.kind = kind) → e.Fits p w → Orderly p w → I w → I (e.apply w))
    (path : ReflTransGen (Edits p kind) a b) (h : Orderly p a) (hi : I a) : Orderly p b ∧ I b := by
  induction path with
  | refl => exact ⟨h, hi⟩
  | tail _ edit ih =>
    obtain ⟨e, hk, fits, rfl, -⟩ := edit
    exact ⟨e.orderly fits ih.1, step _ e hk fits ih.1 ih.2⟩

namespace Graph.Slender

variable {p : Plan} {w w' : Workspace}

theorem subsides (h : w.graph.Slender p) (k : Subsides w w') : w'.graph.Slender p :=
  ⟨fun j hj pos l => Nat.le_trans (k.width l) (h.width j hj pos l), Nat.le_trans (k.width _) h.sink⟩

theorem addNode (h : w.graph.Slender p) {layer : Nat} (room : w.Room p layer 1) (states : BySide State) :
    (w.addNode layer states).2.graph.Slender p := by
  have grows := w.graph.width_appendNode layer states
  refine ⟨fun k hk pos l => ?_, ?_⟩
  · refine Nat.le_trans (grows l) ?_
    split_ifs with e
    · have := room.width k hk
      rw [e]
      omega
    · exact h.width k hk pos l
  · refine Nat.le_trans (grows _) ?_
    split_ifs with e
    · exact e ▸ room.sink e.symm
    · exact h.sink

theorem edit (h : w.graph.Slender p) {e : Edit} (fits : e.Fits p w) : (e.apply w).graph.Slender p := by
  by_cases calm : e.kind = .calm
  · exact h.subsides (e.subsides calm fits)
  · cases e with
    | addNode layer states => exact h.addNode fits.2 states
    | split layer states => exact h.addNode fits.2.1 states
    | markBuilt | markUpKnown | reboot => exact h
    | _ => exact absurd rfl calm

end Graph.Slender

/-- What holds of a workspace throughout a propagation. -/
structure Fair (p : Plan) (w : Workspace) : Prop extends Orderly p w where
  slender : w.graph.Slender p
  paid : w.counters.nodesSplit + w.budget ≤ p.options.budget
  cached : w.cache.Sound p.model
  built : w.built = true

theorem Fair.edit {p : Plan} {w : Workspace} (h : Fair p w) {e : Edit} (fits : e.Fits p w) :
    Fair p (e.apply w) where
  toOrderly := e.orderly fits h.toOrderly
  slender := h.slender.edit fits
  paid := by
    have paid := h.paid
    by_cases calm : e.kind = .calm
    · rw [(e.subsides calm fits).budget, (e.subsides calm fits).split]
      exact paid
    · cases e with
      | split layer states =>
        have left : 0 < w.budget := fits.2.2
        show w.counters.nodesSplit + 1 + (w.budget - 1) ≤ _
        omega
      | markBuilt | markUpKnown | addNode | reboot => exact paid
      | _ => exact absurd rfl calm
  cached := e.cached fits h.cached
  built := e.built h.built

/-- A propagation which came from `w₀` to `w`: the diagram was built in `u` and refined from there on. -/
structure Underway (p : Plan) (w₀ u w : Workspace) : Prop where
  building : ReflTransGen (Edits p .building) w₀ u
  given : w₀.built = true → u = w₀
  refining : ReflTransGen (Edits p .refining) u w
  fair : Fair p w

/-- Two equal workspaces to which edits of a kind lead. -/
def Traced (p : Plan) (kind : Edit.Kind) (u w w' : Workspace) : Prop :=
  w = w' ∧ ReflTransGen (Edits p kind) u w ∧ Fair p w

namespace Traced

variable {p : Plan} {kind : Edit.Kind} {u w w' : Workspace}

theorem edit (h : Traced p kind u w w') (e : Edit) (hk : e.kind = .calm ∨ e.kind = kind) (fits : e.Fits p w) :
    Traced p kind u (e.apply w) (e.apply w') := by
  obtain ⟨rfl, path, fair⟩ := h
  have fair' := fair.edit fits
  exact ⟨rfl, path.tail ⟨e, hk, fits, rfl, fair'.slender, Nat.le_of_add_right_le fair'.paid⟩, fair'⟩

theorem bond (p : Plan) (kind : Edit.Kind) (u : Workspace) :
    Bond.Also p p.options.useCache kind (Traced p kind u) where
  alike := by
    rintro w _ ⟨rfl, -⟩
    exact ⟨w.cache, w.counters.cacheHits, w.counters.cacheMisses, rfl⟩
  orderly h := h.2.2.toOrderly
  cached h := h.2.2.cached
  calm e hk fits h := h.edit e (Or.inl hk) fits
  edit e hk fits h := h.edit e (Or.inr hk) fits
  along := by
    rintro w _ direction layer n values ⟨rfl, path, fair⟩
    have same := rwp_same (remembers_stateAlong (Q := fun v => Traced p kind u v v ∧ Evolves w v)
      (p := p) direction layer n values fair.cached fun cache hits misses sound =>
        ⟨edit ⟨rfl, path, fair⟩ (.memorize cache hits misses) (Or.inl rfl) sound,
          Edit.evolves (e := .memorize cache hits misses) sound fair.toOrderly⟩)
    exact same.mono (fun _ _ _ k => k.1 ▸ k.2) fun _ _ k => k.1 ▸ k.2.1

end Traced

/-- Within its width, and empty before it is built. -/
structure Diagram.Held (p : Plan) (d : Diagram) : Prop where
  census : ∀ t, Census p (d.workspace p t)
  slender : d.graph.Slender p
  bare : d.built = false → ∀ l, d.graph.width l = 0

theorem Diagram.Held.orderly {p : Plan} {d : Diagram} (h : d.Held p) (t : Domains) :
    Orderly p (d.workspace p t) := ⟨h.census t, Nat.le_refl _⟩

theorem Underway.begins {p : Plan} {d : Diagram} (h : d.Held p) (t : Domains) :
    Begins p p.options.useCache (fun w w' => w = w' ∧ ∃ u, Underway p (d.workspace p t) u w)
      (d.workspace p t) := by
  have paid : (d.workspace p t).counters.nodesSplit + (d.workspace p t).budget ≤ p.options.budget :=
    Nat.le_of_eq (Nat.zero_add _)
  refine ⟨fun built => ?_, fun fresh => ⟨fun l _ => h.bare fresh l, ?_⟩⟩
  · refine ⟨_, Traced.bond p .refining (d.workspace p t), ⟨rfl, .refl, h.orderly t, h.slender, paid,
      Memo.sound_empty _, built⟩, fun w w' k => ⟨k.1, d.workspace p t, .refl, fun _ => rfl, k.2.1, k.2.2⟩⟩
  · have marked : (Edit.markBuilt).Fits p (d.workspace p t) := trivial
    refine ⟨_, Traced.bond p .building (d.workspace p t), ⟨rfl, .single ⟨.markBuilt, Or.inr rfl, marked, rfl,
      h.slender, Nat.zero_le _⟩, Edit.orderly marked (h.orderly t), h.slender, paid, Memo.sound_empty _, rfl⟩, ?_⟩
    rintro u u' ⟨rfl, building, fair⟩
    refine ⟨_, Traced.bond p .refining u, ⟨rfl, .refl, fair⟩, fun w w' k => ⟨k.1, u, building, fun built => ?_,
      k.2.1, k.2.2⟩⟩
    exact absurd (built.symm.trans fresh) (by simp)

/-- No node is split off while a diagram is built. -/
theorem Edits.split_of_building {p : Plan} {a b : Workspace} (path : ReflTransGen (Edits p .building) a b)
    (h : Orderly p a) : b.counters.nodesSplit = a.counters.nodesSplit := by
  refine (Edits.along (I := fun w => w.counters.nodesSplit = a.counters.nodesSplit) (fun w e hk fits _ hi => ?_)
    path h rfl).2
  by_cases calm : e.kind = .calm
  · exact (e.subsides calm fits).split.trans hi
  · cases e with
    | markBuilt | markUpKnown | addNode => exact hi
    | split | reboot => exact absurd hk (by simp [Edit.kind])
    | _ => exact absurd rfl calm

/-- While a diagram is refined every new node is one which was split off. -/
theorem Edits.nodes_of_refining {p : Plan} {a b : Workspace} (path : ReflTransGen (Edits p .refining) a b)
    (h : Orderly p a) : b.graph.nodes.size + a.counters.nodesSplit =
      a.graph.nodes.size + b.counters.nodesSplit := by
  refine (Edits.along (I := fun w => w.graph.nodes.size + a.counters.nodesSplit =
    a.graph.nodes.size + w.counters.nodesSplit) (fun w e hk fits _ hi => ?_) path h rfl).2
  by_cases calm : e.kind = .calm
  · rw [(e.subsides calm fits).nodes, (e.subsides calm fits).split]
    exact hi
  · cases e with
    | split layer states =>
      show (w.graph.appendNode layer states).2.nodes.size + _ = a.graph.nodes.size + (w.counters.nodesSplit + 1)
      rw [Graph.size_appendNode]
      omega
    | reboot => exact hi
    | markBuilt | markUpKnown | addNode => exact absurd hk (by simp [Edit.kind])
    | _ => exact absurd rfl calm

section

variable {p : Plan} {d : Diagram} {fuel : Nat} {lost : List Nat} {t : Domains} {w : Workspace}

theorem Diagram.propagate_of_ok (h : p.maintain fuel lost (d.workspace p t) = .ok () w) :
    d.propagate p fuel lost t = ⟨none, w.toDiagram, w.domains, w.counters, w.changes.reverse⟩ := by
  unfold Diagram.propagate EStateM.run
  dsimp only
  rw [show (if p.options.isExact then maintainExact p lost else maintainRelaxed p fuel lost) =
    p.maintain fuel lost from rfl, h]

theorem Diagram.propagate_of_error {stop : Stop} (h : p.maintain fuel lost (d.workspace p t) = .error stop w) :
    d.propagate p fuel lost t = ⟨some stop, w.toDiagram, w.domains, w.counters, w.changes.reverse⟩ := by
  unfold Diagram.propagate EStateM.run
  dsimp only
  rw [show (if p.options.isExact then maintainExact p lost else maintainRelaxed p fuel lost) =
    p.maintain fuel lost from rfl, h]

end

/-- A propagation, however it ends, is a sequence of edits which stay within the width and the budget. -/
theorem Diagram.Held.propagate {p : Plan} {d : Diagram} (h : d.Held p) (fuel : Nat) (lost : List Nat)
    (t : Domains) : ∃ u w, Underway p (d.workspace p t) u w ∧
      w.toDiagram = (d.propagate p fuel lost t).diagram ∧
      w.domains = (d.propagate p fuel lost t).domains ∧
      w.counters = (d.propagate p fuel lost t).counters ∧
      w.changes.reverse = (d.propagate p fuel lost t).changes := by
  have run := rwp_maintain fuel lost (Underway.begins h t)
  change rwp _ (p.maintain fuel lost) _ _ _ _ at run
  unfold rwp at run
  cases hm : p.maintain fuel lost (d.workspace p t) <;> rw [hm] at run
  · obtain ⟨-, -, u, underway⟩ := run
    rw [Diagram.propagate_of_ok hm]
    exact ⟨u, _, underway, rfl, rfl, rfl, rfl⟩
  · obtain ⟨-, -, u, underway⟩ := run
    rw [Diagram.propagate_of_error hm]
    exact ⟨u, _, underway, rfl, rfl, rfl, rfl⟩

theorem Diagram.endures_held : Endures fun p d => d.Held p where
  initial p := by
    have empty : ∀ l, (Diagram.initial p.model).graph.width l = 0 := by
      intro l
      unfold Graph.width
      rw [show (Diagram.initial p.model).graph = Graph.withLayers (p.model.depth + 1) from rfl,
        Graph.layer_withLayers]
      rfl
    refine ⟨fun t => (tidy_initial p (fun _ => False) t).toCensus, ⟨fun k _ _ l => ?_, ?_⟩, fun _ => empty⟩
    · rw [empty]; exact Nat.zero_le _
    · rw [empty]; exact Nat.zero_le _
  propagate p d fuel lost t h := by
    obtain ⟨u, w, hw, hd, -⟩ := h.propagate fuel lost t
    rw [← hd]
    exact ⟨fun s => hw.fair.congr rfl rfl, hw.fair.slender,
      fun fresh => absurd (hw.fair.built.symm.trans fresh) (by simp)⟩

namespace Solver

/-- The width bound holds of every diagram of a solver at any time, also of those which checkpoints keep. From any
of them a propagation goes on by single edits which stay within the width, whatever the domains and the allowance
are and however it ends. Once the diagram is built, every node which is created is split off another one, and these
are no more than the budget. -/
theorem Arises.slender {s : Solver} (h : s.Arises) {i : Nat} {p : Plan} (hp : s.planAt i = some p)
    {v : World} (hv : v = s.world ∨ v ∈ s.history.kept) {d : Diagram} (hd : v.diagrams[i]? = some d) :
    d.graph.Slender p ∧ ∀ fuel lost t, ∃ u w, ReflTransGen (Edits p .building) (d.workspace p t) u ∧
      (d.built = true → u = d.workspace p t) ∧ ReflTransGen (Edits p .refining) u w ∧
      w.toDiagram = (d.propagate p fuel lost t).diagram ∧
      w.domains = (d.propagate p fuel lost t).domains ∧
      w.counters = (d.propagate p fuel lost t).counters ∧
      w.graph.nodes.size = u.graph.nodes.size + w.counters.nodesSplit ∧
      (d.propagate p fuel lost t).counters.nodesSplit ≤ p.options.budget := by
  have held := (h.everywhere Diagram.endures_held).holds i p hp v hv d hd
  refine ⟨held.slender, fun fuel lost t => ?_⟩
  obtain ⟨u, w, hw, diagram, domains, counters, -⟩ := held.propagate fuel lost t
  refine ⟨u, w, hw.building, hw.given, hw.refining, diagram, domains, counters, ?_, ?_⟩
  · have none : u.counters.nodesSplit = 0 := Edits.split_of_building hw.building (held.orderly t)
    have orderly := (Edits.along (I := fun _ => True) (fun _ _ _ _ _ _ => trivial) hw.building (held.orderly t)
      trivial).1
    have created := Edits.nodes_of_refining hw.refining orderly
    rwa [none] at created
  · rw [← counters]
    exact Nat.le_of_add_right_le hw.fair.paid

end Solver

/-! Three variables with the values 1 to 3 which have to differ, in a diagram which is built with one node in
a layer and refined to up to two. On a checkpoint the first variable is set to 2. -/
namespace Refined

def values : Domain := .ofCons 1 [2, 3]

def options : Options := { Options.relaxed 2 with construction := .widthOne }

def operations : List Operation :=
  [.newVariable (some values), .newVariable (some values), .newVariable (some values),
    .post [.allDifferent [0, 1, 2]] options, .openCheckpoint, .restrict 0 (· == 2), .propagate]

def solver : Solver := ({} : Solver).performAll operations

def plan : Plan := (solver.planAt 0).getD default

def diagram : Diagram := (solver.world.diagrams[0]?).getD default

/-- The solver before the constraint is posted. -/
def declared : Solver := ({} : Solver).performAll (operations.take 3)

def posting : Plan := { model := (Spec.ofConstraints declared.domains [.allDifferent [0, 1, 2]]).toModel, options }

theorem admitted : declared.entries.size = 0 ∧ (Spec.ofConstraints declared.domains [.allDifferent [0, 1, 2]]).check = .ok () ∧
    [Constraint.allDifferent [0, 1, 2]].all (·.registrable declared.domains) = true ∧
    posting.model.branchVars.all (fun x => decide (x < declared.domains.size)) = true := by decide +kernel

theorem planAt_solver : solver.planAt 0 = some posting := by
  obtain ⟨none, checked, registrable, known⟩ := admitted
  have posted : (declared.perform (.post [.allDifferent [0, 1, 2]] options)).2.planAt declared.entries.size =
      some posting :=
    Solver.planAt_post rfl rfl registrable rfl (Spec.compile_eq_ok.2 ⟨checked, rfl⟩) rfl rfl known
  rw [none] at posted
  have parts : operations = operations.take 3 ++ .post [.allDifferent [0, 1, 2]] options :: operations.drop 4 := rfl
  unfold solver
  rw [parts, Solver.performAll_append, Solver.performAll_cons]
  exact Solver.planAt_performAll posted (operations.drop 4)

end Refined

theorem Solver.Arises.slender_refined : Refined.diagram.graph.Slender Refined.plan ∧
    ∀ fuel lost t, ∃ u w,
      ReflTransGen (Edits Refined.plan .building) (Refined.diagram.workspace Refined.plan t) u ∧
      (Refined.diagram.built = true → u = Refined.diagram.workspace Refined.plan t) ∧
      ReflTransGen (Edits Refined.plan .refining) u w ∧
      w.toDiagram = (Refined.diagram.propagate Refined.plan fuel lost t).diagram ∧
      w.domains = (Refined.diagram.propagate Refined.plan fuel lost t).domains ∧
      w.counters = (Refined.diagram.propagate Refined.plan fuel lost t).counters ∧
      w.graph.nodes.size = u.graph.nodes.size + w.counters.nodesSplit ∧
      (Refined.diagram.propagate Refined.plan fuel lost t).counters.nodesSplit ≤
        Refined.plan.options.budget := by
  have arises : Refined.solver.Arises := Solver.Arises.start.performAll Refined.operations
  have plan : Refined.solver.planAt 0 = some Refined.plan :=
    Lone.eq_some_getD (Option.isSome_of_eq_some Refined.planAt_solver) _
  have paired := (arises.everywhere Diagram.endures_held).paired
  obtain ⟨d, drawn⟩ := Solver.diagram_of_planAt (paired _ (Or.inl rfl)) plan
  have diagram : Refined.solver.world.diagrams[0]? = some Refined.diagram :=
    Lone.eq_some_getD (Option.isSome_of_eq_some drawn) _
  exact arises.slender plan (Or.inl rfl) diagram

end DecisionDiagrams
