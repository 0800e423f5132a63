import DecisionDiagrams.Proofs.Engine.Paths
import DecisionDiagrams.Proofs.Solver.Labels

/-! Diagrams without a width and without tests of nodes in a run of a solver. If checkpoints are only
opened when no change waits to be told, then after every propagation the paths of such a diagram are
the accepted tuples in the domains, and the diagram reports a conflict only if there are none. -/

namespace DecisionDiagrams

/-- The diagram agrees with the domains and, if it has no width and no tests of nodes, stands for the
accepted tuples. -/
def Enumerates : Standing := fun p stale d s =>
  Agrees p stale d s ∧ (p.options.isExact = true → p.model.nodeChecks = [] →
    Faithful p s p.model.depth (d.workspace p s))

namespace Enumerates

variable {p : Plan} {stale : Nat → Prop} {d : Diagram} {s : Domains}

/-- The diagram was not built yet, or it is faithful. -/
theorem ready (he : p.options.isExact = true) (hn : p.model.nodeChecks = [])
    (h : d.built = true ∧ Enumerates p stale d s ∨ d = Diagram.initial p.model) :
    d.built = true ∧ Faithful p s p.model.depth (d.workspace p s) ∨
      d.built = false ∧ d.upKnown = (!p.model.hasUp) ∧ ∃ k, d.graph = Graph.withLayers k := by
  rcases h with ⟨hb, h⟩ | rfl
  · exact Or.inl ⟨hb, h.2 he hn⟩
  · exact Or.inr ⟨rfl, rfl, _, rfl⟩

/-- What a call of such a diagram leaves behind. -/
theorem call (hp : p.Distinct) (he : p.options.isExact = true) (hn : p.model.nodeChecks = [])
    (h : d.built = true ∧ Enumerates p stale d s ∨ d = Diagram.initial p.model) (fuel : Nat)
    (lost : List Nat) :
    (∀ e, (d.propagate p fuel lost s).stop = some e → Empties p s e) ∧
    ((d.propagate p fuel lost s).stop = none →
      ∃ w, (d.propagate p fuel lost s).diagram = w.toDiagram ∧
        (d.propagate p fuel lost s).domains = w.domains ∧ Evolves (d.workspace p s) w ∧
        Faithful p s p.model.depth w ∧
        Tidy p (remaining stale d.built lost) [] w) := by
  have ht : Tidy p stale [] (d.workspace p s) := by
    rcases h with ⟨-, h⟩ | rfl
    · exact h.1.1
    · exact tidy_initial p stale s
  have hwp : Work.wp (if p.options.isExact then Work.maintainExact p lost
      else Work.maintainRelaxed p fuel lost)
      (fun _ w' => (Settled p (remaining stale d.built lost) (d.workspace p s) w' ∧ w'.built = true) ∧
        Faithful p s p.model.depth w')
      (fun e _ => True ∧ Empties p s e) (d.workspace p s) := by
    rw [if_pos he]
    exact Work.wp.and (wp_maintainExact hp lost ht)
      (Faithful.wp_maintainExact hp hn ht (ready he hn h) lost)
  obtain ⟨w', hd, hs, hok, herr⟩ := Diagram.propagate_of_wp hwp
  refine ⟨fun e h => (herr e h).2, fun h => ⟨w', hd, hs, ?_⟩⟩
  obtain ⟨⟨⟨ht', hev, -⟩, -⟩, hf⟩ := hok h
  exact ⟨hev, hf, ht'⟩

/-- The tuples which a call leaves are some of those before it. -/
theorem tuples_of_evolves {w w' : Workspace} (h : Evolves w w') :
    p.model.tuples w'.domains ⊆ p.model.tuples w.domains :=
  Model.tuples_mono fun _ _ _ hv => h.domains.contains _ _ hv

/-- A call fails if and only if no tuple is left, unless a rule cannot go on. -/
theorem fails_iff (hp : p.Distinct) (he : p.options.isExact = true) (hn : p.model.nodeChecks = [])
    (h : d.built = true ∧ Enumerates p stale d s ∨ d = Diagram.initial p.model) (fuel : Nat)
    {lost : List Nat} (hs : ∀ l, stale l → l ∈ lost) (hinit : d.built = false → ∀ l, ¬ stale l)
    (hf : ∀ f, (d.propagate p fuel lost s).stop ≠ some (.fault f)) :
    (d.propagate p fuel lost s).stop ≠ none ↔ p.model.tuples s = ∅ := by
  obtain ⟨herr, hok⟩ := call hp he hn h fuel lost
  constructor
  · intro hne
    obtain ⟨e, hstop⟩ := Option.ne_none_iff_exists'.1 hne
    rcases herr e hstop with ⟨f, rfl⟩ | ⟨-, hempty⟩
    · exact absurd hstop (hf f)
    · exact hempty
  · intro hempty hstop
    obtain ⟨w', -, -, hev, hfaith, ht⟩ := hok hstop
    have htidy : Tidy p (fun _ => False) [] w' := by
      refine ht.weaken fun l hl => ?_
      cases hb : d.built with
      | true => exact hl.2 ⟨hb, hs l hl.1⟩
      | false => exact hinit hb l hl.1
    have hsub := tuples_of_evolves (p := p) hev
    obtain ⟨vs, hvs⟩ := (hfaith.redomain (v := w') rfl rfl hsub).nonempty htidy
    have := hsub hvs
    rw [show (d.workspace p s).domains = s from rfl, hempty] at this
    exact this

theorem returns (hp : p.Distinct) (hv : p.options.isValid = true) (fuel : Nat) (lost : List Nat)
    (h : d.built = true ∧ Enumerates p stale d s ∨ d = Diagram.initial p.model) :
    Returns Enumerates (fun _ _ => False) p (remaining stale d.built lost) s
      (d.propagate p fuel lost s) := by
  have ht : Tidy p stale [] (d.workspace p s) := by
    rcases h with ⟨-, h⟩ | rfl
    · exact h.1.1
    · exact tidy_initial p stale s
  have hr := Agrees.returns hp hv fuel lost ht
  refine { hr with stands := fun hstop => ⟨hr.stands hstop, fun he hn => ?_⟩ }
  obtain ⟨w', hd, hs, hev, hfaith, -⟩ := (call hp he hn h fuel lost).2 hstop
  rw [hd, hs]
  have fewer := tuples_of_evolves (p := p) hev
  exact hfaith.redomain (v := w'.toDiagram.workspace p w'.domains) rfl rfl fewer

/-- Diagrams keep standing for their tuples in all runs. -/
theorem upheld {β : Type} {R : Rules β}
    (hR : ∀ s b p, R.plan s b p → p.Distinct ∧ p.options.isValid = true) :
    R.Upholds (fun _ _ => False) (fun _ _ => False) Enumerates := by
  have agrees : R.Upholds (fun _ _ => False) (fun _ _ => False) Agrees := Agrees.upheld hR
  exact {
    under := agrees.under
    known := agrees.known
    distinct := agrees.distinct
    accepted := fun _ _ h => h
    adapt := by
      intro p stale stale' d s t h hle hst hlost
      refine ⟨agrees.adapt h.1 hle hst hlost, fun he hn => ?_⟩
      exact (h.2 he hn).redomain (v := d.workspace p t) rfl rfl (Model.tuples_mono hle)
    first := by
      rintro p s fuel lost ⟨b, r, hp, -, -⟩
      obtain ⟨hd, hv⟩ := hR _ _ _ hp
      have h := @Enumerates.returns p (fun _ => False) _ s hd hv fuel lost (Or.inr rfl)
      refine { h with stands := fun he => ?_ }
      have hs := h.stands he
      exact ⟨⟨hs.1.1.weaken fun l hl => hl.1, hs.1.2⟩, hs.2⟩
    again := by
      rintro p stale d s fuel lost ⟨b, r, hp, -, -⟩ hb h
      obtain ⟨hd, hv⟩ := hR _ _ _ hp
      have hr := Enumerates.returns hd hv fuel lost (Or.inl ⟨hb, h⟩)
      refine { hr with stands := fun he => ?_ }
      have hs := hr.stands he
      exact ⟨⟨hs.1.1.weaken fun l hl => ⟨hl.1, fun hm => hl.2 ⟨hb, hm⟩⟩, hs.1.2⟩, hs.2⟩ }

end Enumerates

/-- Specifications are posted with valid options, and checkpoints are only opened when no change waits
to be told. -/
def Rules.orderly : Rules Spec where
  plan _ b p := b.Plans p
  opens s := s.domains.changed = #[]

theorem Rules.orderly_upholds :
    Rules.orderly.Upholds (fun _ _ => False) (fun _ _ => False) Enumerates :=
  Enumerates.upheld fun _ _ _ hp => ⟨hp.distinct, hp.valid⟩

/-- Whenever a propagation succeeds, the paths of a diagram without a width and without tests of nodes
are the accepted tuples in the domains, each of them is one path, and the domains hold the values of
these tuples. Whenever such a diagram is called it fails if and only if no accepted tuple is in the
domains. -/
theorem Run.represents {h : Story Spec} {s : Solver} (run : Run .orderly h s)
    (calm : h.calm = true) {o : Solver} (starts : s.Starts .orderly o) {i : Nat} {p : Plan}
    (plan : o.planAt i = some p) (exact : p.options.maxWidth = none)
    (plain : p.model.nodeChecks = []) :
    (∀ t d, o.propagate = (none, t) → t.world.diagrams[i]? = some d →
      Represents p.model d.graph t.domains) ∧
    ∀ u r, o.Calls i u r → (∀ f, r ≠ some (.fault f)) →
      (r ≠ none ↔ p.model.tuples u.domains = ∅) := by
  have he : p.options.isExact = true := by
    unfold Options.isExact
    rw [exact]
    rfl
  obtain ⟨kept, alive⟩ := run.kept_of_starts Rules.orderly_upholds calm starts
  have fresh := (run.nothing_forgotten Rules.orderly_upholds fun _ h => h).1
  refine ⟨fun t d done hd => ?_, fun u r hcall hfault => ?_⟩
  · obtain ⟨hk, hq, settled, hpr, -⟩ := kept.propagate Rules.orderly_upholds.toUpheld alive done
    have hplan := (hpr.plan i).trans plan
    rcases hk.stands i p d hplan hd with ⟨-, hs⟩ | ⟨-, hm⟩
    · have current : ∀ l, ¬ t.staleAt (Solver.stillForgotten h.past.current.forgotten o t) i p l := by
        rintro l (hl | hl | hl)
        · exact fresh _ hl.1
        · exact absurd (hk.listed i (List.ne_nil_of_mem hl)) (by rw [hq]; exact List.not_mem_nil)
        · rw [settled] at hl
          exact Array.not_mem_empty _ hl
      exact (hs.2 he plain).represents_tuples (hs.1.1.weaken fun l hl => current l hl) hs.1.2
    · rw [hq] at hm
      cases hm
  · obtain ⟨rest, t, rounds, hq, hc⟩ := hcall
    obtain ⟨mid, -⟩ := (kept.midway Rules.orderly_upholds.toUpheld).rounds
      Rules.orderly_upholds.toUpheld rounds
    have hplan : u.planAt i = some p := by
      rw [mid.progress.plan, (Solver.progress_announce o).plan]
      exact plan
    obtain ⟨d, hd⟩ := Solver.diagram_of_planAt mid.kept.paired hplan
    obtain ⟨hstop, -⟩ := Solver.called_callDiagram (s := u.dequeue rest) hplan hd Solver.allowance
    rw [hc] at hstop
    change r = (d.propagate p Solver.allowance (u.lostAt i) u.domains).stop.map _ at hstop
    have hstands := mid.kept.stands i p d hplan hd
    obtain ⟨b, r', hb, -, -⟩ := mid.kept.fits i p hplan
    have hfails : (d.propagate p Solver.allowance (u.lostAt i) u.domains).stop ≠ none ↔
        p.model.tuples u.domains = ∅ := by
      have hf : ∀ f, (d.propagate p Solver.allowance (u.lostAt i) u.domains).stop
          ≠ some (.fault f) := by
        intro f e
        rw [e] at hstop
        exact hfault f hstop
      rcases hstands with hs | ⟨hini, -⟩
      · refine Enumerates.fails_iff hb.distinct he plain (Or.inl hs) _ ?_ ?_ hf
        · rintro l (hl | hl | hl)
          · exact absurd hl.1.1 (fresh _)
          · exact hl
          · rw [mid.settled] at hl
            exact absurd hl (Array.not_mem_empty _)
        · exact fun hn => absurd (hs.1.symm.trans hn) (by simp)
      · exact @Enumerates.fails_iff p (fun _ => False) _ _ hb.distinct he plain (Or.inr hini) _ _
          nofun (fun _ _ => id) hf
    rw [← hfails, hstop]
    cases (d.propagate p Solver.allowance (u.lostAt i) u.domains).stop <;> simp

/-! A solver with the variables `x0` and `x1` in 1 and 2, which have to differ, and a diagram without a
width. The value 1 is assigned to `x0`, and in the end also to `x1`. -/
namespace Alternating

/-- The state is the value before, and the tests want another one. -/
def register : StateM Spec Unit := do
  let c ← Spec.addScope "alternating" [0, 1]
  let last ← Spec.declareProperty c .down (.integer 0 0 2) .minimum
  Spec.setTransition last [] fun _ values out =>
    .ok (out.setInteger last.index (values.toList.headD 0))
  Spec.addArcCheck c fun arc => .ok (arc.value != arc.parentDown.integer last.index)

def spec : Spec := (register {}).2

def plan : Plan := { model := spec.toModel, options := Options.exact }

def domain : Domain := .ofCons 1 [2]

def first : Solver := ({} : Solver).setDomains (Domains.add {} domain)

def started : Solver := first.setDomains (first.domains.add domain)

def posted : Solver := (started.addDiagram plan).2

def assigned : Solver := (posted.assign 0 1).toOption.getD posted

def propagated : Solver := assigned.propagate.2

def clash : Solver := (assigned.assign 1 1).toOption.getD assigned

/-- How the operations below are answered. -/
theorem answers : (spec.check = .ok () ∧ plan.model.nodeChecks.isEmpty = true) ∧
    (started.addDiagram plan).1 = .ok 0 ∧ (posted.assign 0 1).toOption.isSome = true ∧
    assigned.propagate.1 = none ∧ (assigned.assign 1 1).toOption.isSome = true ∧
    clash.announce.queue = [0] ∧
    ((clash.announce.dequeue []).callDiagram Solver.allowance 0).1 = some .emptyDomain := by decide +kernel

theorem plans : spec.Plans plan :=
  ⟨.arcCheck (.adjust (.property (.scope .start _ _) _ _ _ _) _ _) _ _,
    Spec.compile_eq_ok.2 ⟨answers.1.1, rfl⟩, rfl⟩

theorem add_posted : started.addDiagram plan = (.ok 0, posted) := Prod.fst_eq_iff.1 answers.2.1

theorem assign_posted : posted.assign 0 1 = .ok assigned := Lone.eq_ok_getD answers.2.2.1

theorem assign_assigned : assigned.assign 1 1 = .ok clash := Lone.eq_ok_getD answers.2.2.2.2.1

theorem planAt_assigned : assigned.planAt 0 = some plan :=
  (Solver.planAt_of_restrict assign_posted 0).trans (Solver.planAt_of_addDiagram add_posted)

theorem planAt_clash : clash.planAt 0 = some plan :=
  (Solver.planAt_of_restrict assign_assigned 0).trans planAt_assigned

theorem run_assigned : ∃ h, Run .orderly h assigned ∧ h.calm = true := by
  have h₁ : ({} : Solver).addVariable (some domain) = .ok (0, first) := rfl
  have h₂ : first.addVariable (some domain) = .ok (1, started) := rfl
  exact ⟨_, (((Run.start.addVariable rfl h₁).addVariable rfl h₂).post rfl plans add_posted).restrict rfl
    assign_posted, rfl⟩

theorem run_clash : ∃ h, Run .orderly h clash ∧ h.calm = true := by
  obtain ⟨h, run, calm⟩ := run_assigned
  exact ⟨_, run.restrict calm assign_assigned, calm⟩

end Alternating

theorem Run.represents_alternating :
    Represents ((Alternating.assigned.planAt 0).getD Alternating.plan).model
      ((Alternating.propagated.world.diagrams[0]?).getD default).graph
      Alternating.propagated.domains ∧
    ((Alternating.clash.planAt 0).getD Alternating.plan).model.tuples
      Alternating.clash.announce.domains = ∅ := by
  obtain ⟨⟨-, plain⟩, -, -, ended, -, queue, failed⟩ := Alternating.answers
  have plain := List.isEmpty_iff.1 plain
  rw [Alternating.planAt_assigned, Alternating.planAt_clash]
  constructor
  · obtain ⟨h, run, calm⟩ := Alternating.run_assigned
    have done : Alternating.assigned.propagate = (none, Alternating.propagated) := Prod.fst_eq_iff.1 ended
    have planned := (Solver.planAt_propagate Alternating.assigned 0).trans Alternating.planAt_assigned
    have diagram := Solver.diagram_eq_getD (run.propagate calm done) planned default
    exact (Run.represents run calm (Or.inl rfl) Alternating.planAt_assigned rfl plain).1 _ _ done diagram
  · obtain ⟨h, run, calm⟩ := Alternating.run_clash
    have calls : Alternating.clash.Calls 0 Alternating.clash.announce (some .emptyDomain) :=
      ⟨[], _, .refl, queue, Prod.fst_eq_iff.1 failed⟩
    exact ((Run.represents run calm (Or.inl rfl) Alternating.planAt_clash rfl plain).2 _ _ calls nofun).1 nofun

end DecisionDiagrams
