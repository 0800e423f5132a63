import DecisionDiagrams.Proofs.Engine.Obeyed
import DecisionDiagrams.Proofs.Solver.Sustains

/-! Diagrams obey their laws throughout a run. Which laws a plan has is left open; the labels of a law
have to allow the domains which the plan was made for. -/

namespace DecisionDiagrams

/-- Which laws the diagrams of a plan are to obey. -/
abbrev Code := (p : Plan) → (d : Direction) → Law p d → Prop

/-- The labels of the law allow every value of the domains. -/
def Law.Allows {p : Plan} {d : Direction} (L : Law p d) (s : Domains) : Prop :=
  ∀ l < p.model.depth, ∀ v, s.contains (p.model.var l) v = true → L.label l v

/-- The diagram agrees with the domains and obeys its laws, and up states are known if there are any. -/
structure Obeys (C : Code) (p : Plan) (stale : Nat → Prop) (d : Diagram) (s : Domains) : Prop where
  agrees : Agrees p stale d s
  upKnown : p.options.isExact = false → p.model.hasUp = true → d.upKnown = true
  lawful : ∀ e, ∃ L, C p e L ∧ L.Allows s ∧ Lawful L p.model.depth {} ([], d.workspace p s)

/-- The plans which the laws are about. -/
structure Plan.Governed (C : Code) (p : Plan) (s : Domains) : Prop where
  distinct : p.Distinct
  valid : p.options.isValid = true
  readsOwn : p.model.ReadsOwn
  laws : ∀ d, ∃ L, C p d L ∧ L.Allows s

/-- Plans which fit are about the laws, whatever became of the domains since. -/
theorem Rules.Fits.governed {β : Type} {R : Rules β} {C : Code} {p : Plan} {s : Domains} (h : R.Fits p s)
    (hR : ∀ s b p, R.plan s b p → p.Governed C s.domains) : p.Governed C s := by
  obtain ⟨b, r, hp, known, hu⟩ := h
  have hg := hR r b p hp
  refine { hg with laws := fun d => ?_ }
  obtain ⟨L, hL, hs⟩ := hg.laws d
  exact ⟨L, hL, fun l hl v hv => hs l hl v (hu.contains _ (known l hl) v hv)⟩

namespace Obeys

variable {C : Code} {p : Plan} {stale : Nat → Prop} {d : Diagram} {s t : Domains} {e : Direction}

theorem sized (d : Diagram) (p : Plan) (s : Domains) (e : Direction) :
    ((d.workspace p s).agenda.get e).size = p.model.depth + 1 := by
  cases e <;> exact Array.size_replicate

/-- Nodes have the arcs which they need. -/
theorem arcsOn_ne (h : Obeys C p stale d s) {n : NodeId} (on : d.graph.isActive n = true)
    (hi : Inner p.model.depth (d.workspace p s) e n) : (d.workspace p s).arcsOn e n ≠ #[] := by
  obtain ⟨L, -, -, hlaw⟩ := h.lawful e
  intro he
  have fed := (hlaw.fed e n on hi).resolve_right fun h => h.elim (fun h => by cases h) False.elim
  rw [he] at fed
  cases fed

/-- What a call does to the laws of a direction. -/
theorem call (hg : p.Governed C s) {L : Law p e} (fuel : Nat) (lost : List Nat)
    (ht : Tidy p stale [] (d.workspace p s)) (h : Startable L (d.workspace p s))
    (hstop : (d.propagate p fuel lost s).stop = none) :
    Lawful L p.model.depth {}
      ([], (d.propagate p fuel lost s).diagram.workspace p (d.propagate p fuel lost s).domains) := by
  have hwp : Work.wp (if p.options.isExact then Work.maintainExact p lost
      else Work.maintainRelaxed p fuel lost) (fun _ w' => Lawful L p.model.depth {} ([], w') ∧
        (p.options.isExact = false → w'.agenda.isEmpty = true)) (fun _ _ => True) (d.workspace p s) := by
    split_ifs with hx
    · exact Work.wp.mono (wp_maintainExact_lawful hg.distinct lost ht h)
        (fun _ _ h' => ⟨h', fun hn => absurd hx (by rw [hn]; simp)⟩) fun _ _ _ => trivial
    · have hx' : p.options.isExact = false := by simpa using hx
      exact Work.wp.mono (wp_maintainRelaxed_lawful hg.distinct hx' hg.valid hg.readsOwn fuel lost ht h)
        (fun _ _ h' => ⟨h'.1, fun _ => h'.2⟩) fun _ _ _ => trivial
  obtain ⟨w', hd, hs, hok, -⟩ := Diagram.propagate_of_wp hwp
  rw [hd, hs]
  exact ((hok hstop).1.rested (v := w'.toDiagram.workspace p w'.domains) (hok hstop).2 rfl rfl
    (sized _ _ _)).1

theorem returns (hg : p.Governed C s) (fuel : Nat) (lost : List Nat)
    (h : d.built = true ∧ Obeys C p stale d s ∨ d = Diagram.initial p.model) :
    Returns (Obeys C) (fun _ _ => False) p (remaining stale d.built lost) s
      (d.propagate p fuel lost s) := by
  have ht : Tidy p stale [] (d.workspace p s) := by
    rcases h with ⟨-, h⟩ | rfl
    · exact h.agrees.1
    · exact tidy_initial p stale s
  have hr := Agrees.returns hg.distinct hg.valid fuel lost ht
  refine { hr with stands := fun hstop => ⟨hr.stands hstop, fun he hup => ?_, fun e => ?_⟩ }
  · refine Sustains.upKnown_propagate hg.distinct hg.valid fuel lost ht (fun hb => ?_) he hup hstop
    rcases h with ⟨-, h⟩ | rfl
    · exact h.upKnown he
    · cases hb
  · have allows : ∀ {L : Law p e}, L.Allows s → L.Allows (d.propagate p fuel lost s).domains :=
      fun hL l hl v hv => hL l hl v ((hr.narrows hstop).contains _ _ hv)
    rcases h with ⟨hb, h⟩ | rfl
    · obtain ⟨L, hL, hs, hlaw⟩ := h.lawful e
      exact ⟨L, hL, allows hs, call hg fuel lost ht (Or.inl ⟨hb, hlaw⟩) hstop⟩
    · obtain ⟨L, hL, hs⟩ := hg.laws e
      refine ⟨L, hL, allows hs, call hg fuel lost ht (Or.inr ⟨rfl, rfl, ⟨_, rfl⟩, sized _ _ _, hs⟩) hstop⟩

/-- Diagrams obey their laws in all runs. -/
theorem upheld {β : Type} {R : Rules β} (hR : ∀ s b p, R.plan s b p → p.Governed C s.domains) :
    R.Upholds (fun _ _ => False) (fun _ _ => False) (Obeys C) := by
  have agrees : R.Upholds (fun _ _ => False) (fun _ _ => False) Agrees :=
    Agrees.upheld fun s b p h => ⟨(hR s b p h).distinct, (hR s b p h).valid⟩
  have governed : ∀ {p s}, R.Fits p s → p.Governed C s := fun hfits => hfits.governed hR
  exact {
    under := agrees.under
    known := agrees.known
    distinct := agrees.distinct
    accepted := fun _ _ h => h
    adapt := by
      intro p stale stale' d s t h hle hst hlost
      refine ⟨agrees.adapt h.agrees hle hst hlost, h.upKnown, fun e => ?_⟩
      obtain ⟨L, hL, hs, hlaw⟩ := h.lawful e
      exact ⟨L, hL, fun l hl v hv => hs l hl v (hle l hl v hv), hlaw.congr rfl rfl (.refl _)⟩
    first := by
      intro p s fuel lost hfits
      have h : Returns _ _ _ (remaining (fun _ => False) _ _) _ _ := returns (governed hfits) fuel lost (Or.inr rfl)
      refine { h with stands := fun he => ?_ }
      have hs := h.stands he
      exact { hs with agrees := ⟨hs.agrees.1.weaken fun l hl => hl.1, hs.agrees.2⟩ }
    again := by
      intro p stale d s fuel lost hfits hb h
      have hr := returns (governed hfits) fuel lost (Or.inl ⟨hb, h⟩)
      refine { hr with stands := fun he => ?_ }
      have hs := hr.stands he
      exact { hs with agrees := ⟨hs.agrees.1.weaken fun l hl => ⟨hl.1, fun hm => hl.2 ⟨hb, hm⟩⟩, hs.agrees.2⟩ } }

end Obeys

/-- The laws of a workspace without excuses. -/
theorem Lawful.of_workspace {p : Plan} {e : Direction} {L : Law p e} {d : Diagram} {s : Domains}
    (h : Lawful L p.model.depth {} ([], d.workspace p s)) {n : NodeId}
    (on : (d.workspace p s).graph.isActive n = true) (hs : (d.workspace p s).Sown p e n) (o : Option Nat) :
    L.Of (d.workspace p s) n o :=
  (h.rested (fun _ => Agenda.isEmpty_iff.2 fun _ _ => Agenda.waiting_empty _ _ _) rfl rfl
    (Obeys.sized _ _ _)).2 n on hs o

/-- After a propagation every diagram has its property. -/
theorem Run.stands_of_propagate {β : Type} {R : Rules β} {solves : β → (Var → Int) → Prop}
    {accepts : Plan → (Var → Int) → Prop} {P : Standing} (hP : R.Upholds solves accepts P) {h : Story β}
    {s : Solver} (run : Run R h s) (calm : h.calm = true) {o t : Solver} (starts : s.Starts R o)
    (done : o.propagate = (none, t)) {i : Nat} {p : Plan} {d : Diagram} (plan : t.planAt i = some p)
    (diagram : t.world.diagrams[i]? = some d) :
    P p (t.staleAt (Solver.stillForgotten h.past.current.forgotten o t) i p) d t.domains := by
  obtain ⟨kept, alive⟩ := run.kept_of_starts hP calm starts
  obtain ⟨hk, hq, -, -, -⟩ := kept.propagate hP.toUpheld alive done
  rcases hk.stands i p d plan diagram with ⟨-, h⟩ | ⟨-, hm⟩
  · exact h
  · rw [hq] at hm
    cases hm

/-- In the propagation which begins at `s`, the diagram `i` is called and leaves the solver `t`. -/
def Solver.Succeeds (s : Solver) (i : Nat) (t : Solver) : Prop :=
  ∃ rest u, Solver.Rounds Solver.allowance s.announce u ∧ u.queue = i :: rest ∧
    (u.dequeue rest).callDiagram Solver.allowance i = (none, t)

/-- A diagram has its property also when it was just called, while others wait. -/
theorem Run.stands_of_call {β : Type} {R : Rules β} {solves : β → (Var → Int) → Prop}
    {accepts : Plan → (Var → Int) → Prop} {P : Standing} (hP : R.Upholds solves accepts P) {h : Story β}
    {s : Solver} (run : Run R h s) (calm : h.calm = true) {o t : Solver} (starts : s.Starts R o) {i : Nat}
    (called : o.Succeeds i t) {p : Plan} {d : Diagram} (plan : t.planAt i = some p)
    (diagram : t.world.diagrams[i]? = some d) : ∃ stale, P p stale d t.domains := by
  obtain ⟨rest, u, rounds, hq, hc⟩ := called
  obtain ⟨kept, -⟩ := run.kept_of_starts hP calm starts
  obtain ⟨mid, -⟩ := (kept.midway hP.toUpheld).rounds hP.toUpheld rounds
  obtain ⟨-, hpr, -, -⟩ := mid.kept.turn hP.toUpheld mid.settled (hq ▸ List.Subset.refl _) hc
  have hp : u.planAt i = some p := (hpr.plan i).symm.trans plan
  obtain ⟨e, he⟩ := Solver.diagram_of_planAt mid.kept.paired hp
  obtain ⟨hstop, hcalled⟩ := Solver.called_callDiagram (s := u.dequeue rest) hp he Solver.allowance
  rw [hc] at hstop hcalled
  have hnone := Option.map_eq_none_iff.1 hstop.symm
  have hret := (mid.kept.stands i p e hp he).call hP.toUpheld (mid.kept.fits i p hp) mid.settled Solver.allowance
  have hd : d = (e.propagate p Solver.allowance (u.lostAt i) u.domains).diagram := by
    have h := hcalled.diagrams
    change t.world.diagrams = u.world.diagrams.setIfInBounds i _ at h
    rw [h, Array.getElem?_setIfInBounds_self_of_lt (Array.getElem?_eq_some_iff.1 he).1] at diagram
    exact (Option.some.inj diagram).symm
  have hdom : t.domains = (e.propagate p Solver.allowance (u.lostAt i) u.domains).domains :=
    hcalled.domains
  have hs := hret.stands hnone
  rw [← hd, ← hdom] at hs
  exact ⟨_, hs⟩

end DecisionDiagrams
