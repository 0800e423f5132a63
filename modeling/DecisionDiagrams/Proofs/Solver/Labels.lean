import DecisionDiagrams.Proofs.Engine.Agreement
import DecisionDiagrams.Proofs.Solver.Consistency
import DecisionDiagrams.Proofs.Solver.Excursions
import DecisionDiagrams.Proofs.Spec.Registered

/-! The labels of a layer and the domain of its variable. After a propagation every value of a domain
is a label in every diagram over the variable. The labels are also in the domain, unless a change of
the variable was forgotten: going back to a checkpoint which was opened on top of a change that no
diagram was told of brings the changed domain back, but not the duty to tell the diagrams. -/

namespace DecisionDiagrams

/-- Whether an arc of a layer carries the label. -/
def Graph.HasLabel (g : Graph) (l : Nat) (v : Int) : Prop :=
  ∃ n ∈ g.layer l, ∃ a ∈ g.outgoing n, (g.arc a).value = v

theorem Tidy.hasLabel_iff {p : Plan} {stale : Nat → Prop} {w : Workspace} (h : Tidy p stale [] w)
    {l : Nat} {v : Int} : w.graph.HasLabel l v ↔ w.support l v ≠ 0 := by
  rw [h.supports, ← Nat.pos_iff_ne_zero, Graph.labelled_pos_iff]
  constructor
  · rintro ⟨n, hn, a, ha, hv⟩
    obtain ⟨hact, hpar⟩ := h.wf.mem_outgoing.1 ha
    refine ⟨a, hact, ?_, hv⟩
    rw [hpar]
    exact (h.wf.mem_layer.1 hn).2
  · rintro ⟨a, hact, hl, hv⟩
    exact ⟨_, h.wf.mem_layer.2 ⟨h.parent_active hact, hl⟩, a, h.wf.mem_outgoing.2 ⟨hact, rfl⟩, hv⟩

/-- What a propagation of a diagram leaves behind is what its steps leave behind. -/
theorem Diagram.propagate_of_wp {p : Plan} {fuel : Nat} {lost : List Nat} {d : Diagram} {s : Domains}
    {Q : PUnit → Workspace → Prop} {E : Stop → Workspace → Prop}
    (h : Work.wp (if p.options.isExact then Work.maintainExact p lost
      else Work.maintainRelaxed p fuel lost) Q E (d.workspace p s)) :
    ∃ w', (d.propagate p fuel lost s).diagram = w'.toDiagram ∧
      (d.propagate p fuel lost s).domains = w'.domains ∧
      ((d.propagate p fuel lost s).stop = none → Q ⟨⟩ w') ∧
      ∀ e, (d.propagate p fuel lost s).stop = some e → E e w' := by
  unfold Work.wp at h
  unfold propagate EStateM.run
  dsimp only
  split at h
  · rename_i w' hw
    rw [hw]
    exact ⟨w', rfl, rfl, fun _ => h, nofun⟩
  · rename_i e w' hw
    rw [hw]
    refine ⟨w', rfl, rfl, nofun, fun e' he => ?_⟩
    obtain rfl := Option.some.inj he
    exact h

/-- The diagram is tidy, and every value of a domain is a label. -/
def Agrees : Standing := fun p stale d s =>
  Tidy p stale [] (d.workspace p s) ∧ Supported p (List.range p.model.depth) (d.workspace p s)

theorem Tidy.workspace {p : Plan} {stale : Nat → Prop} {w : Workspace} (h : Tidy p stale [] w) :
    Tidy p stale [] (w.toDiagram.workspace p w.domains) :=
  h.congr rfl rfl rfl (Memo.sound_empty _)

theorem tidy_initial (p : Plan) (stale : Nat → Prop) (s : Domains) :
    Tidy p stale [] ((Diagram.initial p.model).workspace p s) := by
  have none_active : ∀ a, ((Diagram.initial p.model).workspace p s).graph.arcIsActive a ≠ true :=
    fun a ha => Nat.not_lt_zero a (Graph.lt_of_arcIsActive _ ha)
  refine { wf := Graph.wf_withLayers _
           layers := Array.size_replicate
           tracked := Array.size_replicate
           supports := fun l v => ?_
           anchored := fun a ha => absurd ha (none_active a)
           inDomain := fun a ha => absurd ha (none_active a)
           cached := Memo.sound_empty _ }
  show Supports.count v ((Array.replicate p.model.depth (∅ : Supports)).getD l ∅) = 0
  have e : (Array.replicate p.model.depth (∅ : Supports)).getD l ∅ = ∅ := by
    by_cases hl : l < p.model.depth <;> simp [hl]
  rw [e]
  rfl

theorem Agrees.returns {p : Plan} {stale : Nat → Prop} {d : Diagram} {s : Domains}
    (hp : p.Distinct) (hv : p.options.isValid = true) (fuel : Nat) (lost : List Nat)
    (h : Tidy p stale [] (d.workspace p s)) :
    Returns Agrees (fun _ _ => False) p (remaining stale d.built lost) s
      (d.propagate p fuel lost s) := by
  have hwp : Work.wp (if p.options.isExact then Work.maintainExact p lost
      else Work.maintainRelaxed p fuel lost)
      (fun _ w' => Settled p (remaining stale d.built lost) (d.workspace p s) w' ∧ w'.built = true)
      (fun _ _ => True) (d.workspace p s) := by
    split_ifs
    · exact wp_maintainExact hp lost h
    · exact wp_maintainRelaxed hp hv fuel lost h
  obtain ⟨w', hd, hs, hn, -⟩ := Diagram.propagate_of_wp hwp
  refine ⟨fun he => ?_, fun he => ?_, fun he => ?_, nofun, nofun⟩
  · rw [hd]
    exact (hn he).2
  · rw [hd, hs]
    exact ⟨(hn he).1.1.workspace, (hn he).1.2.2⟩
  · rw [hs]
    exact (hn he).1.2.1.domains

theorem Agrees.upheld {β : Type} {R : Rules β}
    (hR : ∀ s b p, R.plan s b p → p.Distinct ∧ p.options.isValid = true) :
    R.Upholds (fun _ _ => False) (fun _ _ => False) Agrees where
  under := fun ⟨b, hm⟩ hu => ⟨b, hm.under hu⟩
  known := fun ⟨_, _, _, hk, hu⟩ l hl => Nat.lt_of_lt_of_le (hk l hl) hu.size
  distinct := fun ⟨_, _, hp, _⟩ => (hR _ _ _ hp).1
  accepted := fun _ _ h => h
  adapt := by
    intro p stale stale' d s t h hle hst hlost
    refine ⟨{ h.1.toCensus.congr rfl rfl with
      anchored := h.1.anchored
      inDomain := fun a ha hn => ?_
      cached := Memo.sound_empty _ }, fun l hl v hv => ?_⟩
    · have hl := h.1.toCensus.parent_lt_depth ha
      have hv := h.1.inDomain a ha fun hs => hn (hst _ hl hs)
      by_contra hne
      exact hn (hlost _ hl _ hv (Bool.not_eq_true _ ▸ hne))
    · exact h.2 l hl v (hle l (List.mem_range.1 hl) v hv)
  first := by
    rintro p s fuel lost ⟨b, r, hp, -, -⟩
    have h := Agrees.returns (hR _ _ _ hp).1 (hR _ _ _ hp).2 fuel lost
      (tidy_initial p (fun _ => False) s)
    refine { h with stands := fun he => ?_ }
    exact ⟨(h.stands he).1.weaken fun l hl => hl.1, (h.stands he).2⟩
  again := by
    rintro p stale d s fuel lost ⟨b, r, hp, -, -⟩ hb h
    have hr := Agrees.returns (hR _ _ _ hp).1 (hR _ _ _ hp).2 fuel lost h.1
    refine { hr with stands := fun he => ?_ }
    exact ⟨(hr.stands he).1.weaken fun l hl => ⟨hl.1, fun hm => hl.2 ⟨hb, hm⟩⟩, (hr.stands he).2⟩

/-- Specifications are posted with valid options, and checkpoints are opened at any time. -/
def Rules.free : Rules Spec where
  plan _ b p := b.Plans p
  opens _ := True

theorem Rules.free_upholds : Rules.free.Upholds (fun _ _ => False) (fun _ _ => False) Agrees :=
  Agrees.upheld fun _ _ _ hp => ⟨hp.distinct, hp.valid⟩

/-- After a propagation every value of a domain is a label of every layer with the variable, and every
label is in the domain unless a change of the variable is forgotten. -/
theorem Run.labels_of_propagate {h : Story Spec} {s t : Solver} (run : Run .free h s)
    (calm : h.calm = true) (done : s.propagate = (none, t)) {i : Nat} {p : Plan} {d : Diagram}
    (plan : t.planAt i = some p) (diagram : t.world.diagrams[i]? = some d) {l : Nat}
    (deep : l < p.model.depth) :
    (∀ v, t.domains.contains (p.model.var l) v = true → d.graph.HasLabel l v) ∧
    (¬ (h.propagated s t).past.current.forgotten (p.model.var l) →
      ∀ v, d.graph.HasLabel l v → t.domains.contains (p.model.var l) v = true) := by
  have c := (run.propagate calm done).consistent Rules.free_upholds
  have cur := c.current calm
  have settled : t.domains.changed = #[] :=
    (((run.consistent Rules.free_upholds).current calm).kept
      ((run.consistent Rules.free_upholds).unlisted calm)).propagate Rules.free_upholds.toUpheld
      ((run.consistent Rules.free_upholds).alive (Or.inl calm)) done |>.2.2.1
  obtain ⟨ht, hs⟩ := cur.stands i p d plan diagram
  refine ⟨fun v hv => ht.hasLabel_iff.2 (hs l (List.mem_range.2 deep) v hv), fun hf v hv => ?_⟩
  obtain ⟨n, hn, a, ha, rfl⟩ := hv
  obtain ⟨hact, hpar⟩ := ht.wf.mem_outgoing.1 ha
  have hlay : (d.workspace p t.world.domains).graph.layerOf
      ((d.workspace p t.world.domains).graph.arc a).parent = l := by
    rw [hpar]
    exact (ht.wf.mem_layer.1 hn).2
  have := ht.inDomain a hact
  rw [hlay] at this
  refine this fun hst => hst.elim hf fun hc => ?_
  change p.model.var l ∈ t.domains.changed at hc
  rw [settled] at hc
  exact absurd hc (Array.not_mem_empty _)

/-! A solver with the variable `x0` in 1 and 2 and a diagram over it without rules. The value 1 is
assigned, and a checkpoint is opened and left again before anything is propagated. -/
namespace Lone

def spec : Spec := (Spec.addScope "lone" [0] {}).2

def plan : Plan := { model := spec.toModel, options := Options.exact }

def domain : Domain := .ofCons 1 [2]

def started : Solver := ({} : Solver).setDomains (Domains.add {} domain)

def posted : Solver := (started.addDiagram plan).2

def assigned : Solver := (posted.assign 0 1).toOption.getD posted

def returned : Solver := (assigned.openCheckpoint.backtrack? 0).getD assigned

def propagated : Solver := returned.propagate.2

/-- The diagram after the last propagation. -/
def shown : Diagram := (propagated.world.diagrams[0]?).getD default

/-- How the operations below are answered. -/
theorem answers : spec.check = .ok () ∧ (started.addDiagram plan).1 = .ok 0 ∧
    (posted.assign 0 1).toOption.isSome = true ∧
    (assigned.openCheckpoint.backtrack? 0).isSome = true ∧
    (posted.propagate.1 = none ∧ 0 < plan.model.depth ∧
      posted.propagate.2.domains.contains (plan.model.var 0) 2 = true) ∧
    returned.propagate.1 = none ∧ propagated.domains.contains (plan.model.var 0) 2 = false ∧
      0 ∈ shown.graph.layer 0 ∧ 1 ∈ shown.graph.outgoing 0 ∧ (shown.graph.arc 1).value = 2 := by decide +kernel

theorem plans : spec.Plans plan :=
  ⟨Spec.Registered.scope .start _ _, Spec.compile_eq_ok.2 ⟨answers.1, rfl⟩, rfl⟩

theorem eq_some_getD {α : Type} {o : Option α} (h : o.isSome = true) (a : α) :
    o = some (o.getD a) := by
  cases o with
  | none => cases h
  | some b => rfl

theorem add_started : started.addDiagram plan = (.ok 0, posted) := Prod.fst_eq_iff.1 answers.2.1

theorem planAt_posted : posted.planAt 0 = some plan := Solver.planAt_of_addDiagram add_started

theorem run_posted :
    ∃ h, Run .free h posted ∧ h.calm = true ∧ ∀ x, ¬ h.past.current.forgotten x := by
  have hv : ({} : Solver).addVariable (some domain) = .ok (0, started) := rfl
  exact ⟨_, (Run.start.addVariable rfl hv).post rfl plans add_started, rfl, fun _ hx => hx.1⟩

theorem eq_ok_getD {s : Solver} {r : Except Solver.DomainError Solver}
    (h : r.toOption.isSome = true) : r = .ok (r.toOption.getD s) := by
  cases r with
  | ok t => rfl
  | error e => cases h

theorem assign_posted : posted.assign 0 1 = .ok assigned := eq_ok_getD answers.2.2.1

theorem backtrack_assigned : assigned.openCheckpoint.backtrack? 0 = some returned :=
  eq_some_getD answers.2.2.2.1 assigned

theorem run_returned : ∃ h, Run .free h returned ∧ h.calm = true := by
  obtain ⟨h, run, calm, -⟩ := run_posted
  exact ⟨_, ((run.restrict calm assign_posted).openCheckpoint calm trivial).backtrack backtrack_assigned, rfl⟩

theorem planAt_returned : returned.planAt 0 = some plan :=
  (Solver.planAt_backtrack? backtrack_assigned).trans
    ((Solver.planAt_of_restrict assign_posted 0).trans planAt_posted)

end Lone

theorem Run.labels_of_propagate_lone :
    ((Lone.posted.propagate.2.world.diagrams[0]?).getD default).graph.HasLabel 0 2 ∧
      ∀ v, ((Lone.posted.propagate.2.world.diagrams[0]?).getD default).graph.HasLabel 0 v →
        Lone.posted.propagate.2.domains.contains
          (((Lone.posted.propagate.2.planAt 0).getD Lone.plan).model.var 0) v = true := by
  obtain ⟨-, -, -, -, ⟨ended, deep, left⟩, -⟩ := Lone.answers
  obtain ⟨h, run, calm, fresh⟩ := Lone.run_posted
  have done : Lone.posted.propagate = (none, Lone.posted.propagate.2) := Prod.fst_eq_iff.1 ended
  have planned : Lone.posted.propagate.2.planAt 0 = some Lone.plan :=
    (Solver.planAt_propagate Lone.posted 0).trans Lone.planAt_posted
  have diagram := Solver.diagram_eq_getD (run.propagate calm done) planned default
  rw [planned]
  obtain ⟨supported, labelled⟩ := Run.labels_of_propagate run calm done planned diagram deep
  exact ⟨supported 2 left, labelled fun hf => fresh _ hf.1⟩

/-- Labels and domains need not agree after a propagation if checkpoints may be opened on top of
changes which were not propagated. -/
theorem Run.labels_disagree :
    ¬ ∀ (h : Story Spec) (s t : Solver) (i : Nat) (p : Plan) (d : Diagram) (l : Nat) (v : Int),
      Run .free h s → h.calm = true → s.propagate = (none, t) → t.planAt i = some p →
      t.world.diagrams[i]? = some d → l < p.model.depth →
      (d.graph.HasLabel l v ↔ t.domains.contains (p.model.var l) v = true) := by
  intro general
  obtain ⟨-, -, -, -, ⟨-, deep, -⟩, ended, gone, node, arc, value⟩ := Lone.answers
  obtain ⟨h, run, calm⟩ := Lone.run_returned
  have done : Lone.returned.propagate = (none, Lone.propagated) := Prod.fst_eq_iff.1 ended
  have planned : Lone.propagated.planAt 0 = some Lone.plan :=
    (Solver.planAt_propagate Lone.returned 0).trans Lone.planAt_returned
  have diagram := Solver.diagram_eq_getD (run.propagate calm done) planned default
  have agree := general h _ _ 0 _ _ 0 2 run calm done planned diagram deep
  have label : Lone.shown.graph.HasLabel 0 2 := ⟨0, node, 1, arc, value⟩
  exact absurd (agree.1 label) (Bool.eq_false_iff.1 gone)

end DecisionDiagrams
