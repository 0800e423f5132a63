import DecisionDiagrams.Proofs.Engine.Sustained
import DecisionDiagrams.Proofs.Engine.Paths
import DecisionDiagrams.Proofs.Solver.Labels

/-! Assignments with a certificate in a run of a solver. While such an assignment is in the domains it
has a trail in the diagram, so a call of the diagram keeps it in the domains and ends without a
conflict. -/

namespace DecisionDiagrams

/-- The states of the diagram can be shown to stand for the assignment. -/
def Certified (p : Plan) (σ : Var → Int) : Prop :=
  p.model.Plain ∧ Nonempty (Certificate p.model (p.model.labelsOf σ))

/-- The diagram agrees with the domains, and the certified assignments in them have a trail. -/
def Sustains : Standing := fun p stale d s =>
  Agrees p stale d s ∧ (p.options.isExact = false → p.model.hasUp = true → d.upKnown = true) ∧
  (p.model.Plain → ∀ σ (K : Certificate p.model (p.model.labelsOf σ)),
    (∀ l < p.model.depth, s.contains (p.model.var l) (σ (p.model.var l)) = true) →
    Kept K (fun _ => none) (d.workspace p s))

namespace Sustains

variable {p : Plan} {stale : Nat → Prop} {d : Diagram} {s t : Domains} {σ : Var → Int}
  {ρ : Var → Option Int}

theorem prepared (h : d.built = true ∧ Sustains p stale d s ∨ d = Diagram.initial p.model)
    (hm : p.model.Plain) (K : Certificate p.model (p.model.labelsOf σ))
    (hv : ∀ l < p.model.depth, s.contains (p.model.var l) (σ (p.model.var l)) = true)
    (ho : Others p ρ s) : Prepared K ρ (d.workspace p s) := by
  rcases h with ⟨hb, h⟩ | rfl
  · obtain ⟨t, hk⟩ := h.2.2 hm σ K hv
    exact Or.inl ⟨hb, ⟨t, { hk with others := ho }⟩, h.2.1⟩
  · exact Or.inr ⟨rfl, rfl, ⟨_, rfl⟩, hv, ho⟩

theorem others_none (s : Domains) : Others p (fun _ => none) s := nofun

theorem others_of_within (h : Within σ s) :
    Others p (fun x => if x < s.size then some (σ x) else none) s := by
  intro x v hv _
  dsimp only at hv
  split_ifs at hv with hx
  obtain rfl := Option.some.inj hv
  exact h x hx

/-- What a call does to a certified assignment in the domains. -/
theorem call (hp : p.Distinct) (hv : p.options.isValid = true) (hm : p.model.Plain)
    (K : Certificate p.model (p.model.labelsOf σ)) (fuel : Nat) (lost : List Nat)
    (ht : Tidy p stale [] (d.workspace p s)) (h : Prepared K ρ (d.workspace p s)) :
    (∀ e, (d.propagate p fuel lost s).stop = some e → e.isConflict = false) ∧
    ((d.propagate p fuel lost s).stop = none →
      ∃ w, (d.propagate p fuel lost s).diagram = w.toDiagram ∧
        (d.propagate p fuel lost s).domains = w.domains ∧ Kept K ρ w) := by
  have hwp : Work.wp (if p.options.isExact then Work.maintainExact p lost
      else Work.maintainRelaxed p fuel lost) (fun _ w' => Kept K ρ w')
      (fun e _ => e.isConflict = false) (d.workspace p s) := by
    split_ifs with he
    · exact wp_maintainExact_kept hp hm ht h lost
    · exact wp_maintainRelaxed_kept hp hm hv (by simpa using he) fuel ht h lost
  obtain ⟨w', hd, hs, hok, herr⟩ := Diagram.propagate_of_wp hwp
  exact ⟨herr, fun he => ⟨w', hd, hs, hok he⟩⟩

theorem upKnown_propagate (hp : p.Distinct) (hv : p.options.isValid = true) (fuel : Nat)
    (lost : List Nat) (ht : Tidy p stale [] (d.workspace p s))
    (hu : d.built = true → p.model.hasUp = true → d.upKnown = true)
    (he : p.options.isExact = false) (hup : p.model.hasUp = true)
    (hstop : (d.propagate p fuel lost s).stop = none) :
    (d.propagate p fuel lost s).diagram.upKnown = true := by
  have hwp : Work.wp (if p.options.isExact then Work.maintainExact p lost
      else Work.maintainRelaxed p fuel lost)
      (fun _ w' => p.model.hasUp = true → w'.upKnown = true) (fun _ _ => True)
      (d.workspace p s) := by
    rw [he]
    exact wp_maintainRelaxed_upKnown hp hv fuel lost ht hu
  obtain ⟨w', hd, -, hok, -⟩ := Diagram.propagate_of_wp hwp
  rw [hd]
  exact hok hstop hup

theorem returns (hp : p.Distinct) (hv : p.options.isValid = true)
    (hknown : ∀ l < p.model.depth, p.model.var l < s.size) (fuel : Nat) (lost : List Nat)
    (h : d.built = true ∧ Sustains p stale d s ∨ d = Diagram.initial p.model) :
    Returns Sustains Certified p (remaining stale d.built lost) s (d.propagate p fuel lost s) := by
  have ht : Tidy p stale [] (d.workspace p s) := by
    rcases h with ⟨-, h⟩ | rfl
    · exact h.1.1
    · exact tidy_initial p stale s
  have hr := Agrees.returns hp hv fuel lost ht
  refine ⟨hr.built, fun hstop => ⟨hr.stands hstop, fun he hup => ?_, fun hm σ K hin => ?_⟩,
    hr.narrows, fun hstop σ ⟨hm, ⟨K⟩⟩ hw => ?_, fun σ ⟨hm, ⟨K⟩⟩ hw => ?_⟩
  · refine upKnown_propagate hp hv fuel lost ht (fun hb => ?_) he hup hstop
    rcases h with ⟨-, h⟩ | rfl
    · exact h.2.1 he
    · cases hb
  · have hn := hr.narrows hstop
    obtain ⟨w', hd, hs, t, hk⟩ := (call hp hv hm K fuel lost ht (prepared h hm K
      (fun l hl => hn.contains _ _ (hin l hl)) (others_none s))).2 hstop
    rw [hd, hs]
    exact ⟨t, hk.congr rfl rfl rfl⟩
  · have hn := hr.narrows hstop
    obtain ⟨w', hd, hs, t, hk⟩ := (call hp hv hm K fuel lost ht (prepared h hm K
      (fun l hl => hw _ (hknown l hl)) (others_of_within hw))).2 hstop
    rw [hs] at hn ⊢
    intro x hx
    by_cases hlayer : x ∈ p.model.branchVars
    · obtain ⟨l, hl, rfl⟩ := Array.mem_iff_getElem.1 hlayer
      have := hk.guided.within l hl
      unfold Model.labelsOf Model.var at this
      rw [Array.getD, dif_pos hl] at this
      exact this
    · have hx' := Nat.lt_of_lt_of_eq hx hn.size
      exact hk.others x (σ x) (if_pos hx') hlayer
  · exact (call hp hv hm K fuel lost ht (prepared h hm K
      (fun l hl => hw _ (hknown l hl)) (others_none s))).1

/-- Certified assignments are sustained in all runs. -/
theorem upheld {β : Type} {R : Rules β} {solves : β → (Var → Int) → Prop}
    (hR : ∀ s b p, R.plan s b p → p.Distinct ∧ p.options.isValid = true)
    (accepted : ∀ {b p s σ}, R.Made b p s → Within σ s → solves b σ → Certified p σ) :
    R.Upholds solves Certified Sustains := by
  have agrees : R.Upholds (fun _ _ => False) (fun _ _ => False) Agrees := Agrees.upheld hR
  exact {
    under := agrees.under
    known := agrees.known
    distinct := agrees.distinct
    accepted
    adapt := by
      intro p stale stale' d s t h hle hst hlost
      refine ⟨agrees.adapt h.1 hle hst hlost, h.2.1, fun hm σ K hin => ?_⟩
      obtain ⟨t', hk⟩ := h.2.2 hm σ K fun l hl => hle l hl _ (hin l hl)
      exact ⟨t', ⟨hk.guided.congr rfl hin, hk.down, hk.up, hk.sound, nofun⟩⟩
    first := by
      rintro p s fuel lost ⟨b, r, hp, hk, hu⟩
      have hR' := hR _ _ _ hp
      have h := @returns p (fun _ => False) _ s hR'.1 hR'.2
        (fun l hl => Nat.lt_of_lt_of_le (hk l hl) hu.size) fuel lost (Or.inr rfl)
      refine { h with stands := fun he => ?_ }
      have hs := h.stands he
      exact ⟨⟨hs.1.1.weaken fun l hl => hl.1, hs.1.2⟩, hs.2⟩
    again := by
      rintro p stale d s fuel lost ⟨b, r, hp, hk, hu⟩ hb h
      have hR' := hR _ _ _ hp
      have hr := returns hR'.1 hR'.2 (fun l hl => Nat.lt_of_lt_of_le (hk l hl) hu.size) fuel lost
        (Or.inl ⟨hb, h⟩)
      refine { hr with stands := fun he => ?_ }
      have hs := hr.stands he
      exact ⟨⟨hs.1.1.weaken fun l hl => ⟨hl.1, fun hm => hl.2 ⟨hb, hm⟩⟩, hs.1.2⟩, hs.2⟩ }

end Sustains

/-- A certified assignment in the domains is on a path. -/
theorem Sustains.exists_path {p : Plan} {stale : Nat → Prop} {d : Diagram} {s : Domains} {σ : Var → Int}
    (h : Sustains p stale d s) (certified : Certified p σ)
    (within : ∀ l < p.model.depth, s.contains (p.model.var l) (σ (p.model.var l)) = true) :
    ∃ as, d.graph.IsFullPath p.model.depth as ∧ d.graph.labels as = p.model.branchVars.toList.map σ := by
  obtain ⟨hplain, ⟨K⟩⟩ := certified
  obtain ⟨t, hk⟩ := h.2.2 hplain σ K within
  have htidy := h.1.1
  obtain ⟨hpath, hlab⟩ := hk.guided.isPath htidy.wf p.model.depth 0 (Nat.zero_add _)
  refine ⟨_, ⟨t.node 0, htidy.wf.mem_layer.2 (hk.guided.node 0 (Nat.zero_le _)), hpath⟩, ?_⟩
  refine hlab.trans (List.ext_getElem (by simp [Model.depth]) fun l h1 h2 => ?_)
  have hl : l < p.model.branchVars.size := by simpa using h2
  simp [Model.labelsOf, Model.var, hl]

/-- In every run, an assignment which solves everything posted and is certified for it stays in the
domains, is on a path of every diagram, and rules out conflicts. -/
theorem Run.kept_of_certified {β : Type} {R : Rules β} {solves : β → (Var → Int) → Prop}
    (hP : R.Upholds solves Certified Sustains) {h : Story β} {s : Solver} (run : Run R h s)
    (calm : h.calm = true) {σ : Var → Int} (hσ : h.Solution solves s σ) :
    Within σ s.domains ∧
    (∀ i p d, s.planAt i = some p → s.world.diagrams[i]? = some d →
      ∃ as, d.graph.IsFullPath p.model.depth as ∧
        d.graph.labels as = p.model.branchVars.toList.map σ) ∧
    (∀ f t, s.propagate = (some f, t) → f.isConflict = false) ∧
    ∀ b p, R.plan s b p → solves b σ →
      (s.addDiagram p).1 ≠ .error .infeasibleDiagram ∧
        (s.addDiagram p).1 ≠ .error .infeasibleState := by
  have cur := (run.consistent hP).current calm
  have hw := cur.within σ hσ.1 hσ.2
  refine ⟨hw, fun i p d hp hd => ?_, fun f t hs => run.propagate_of_solution hP calm hσ hs,
    fun b p hb hs => run.post_of_solution hP calm hσ hb hs⟩
  obtain ⟨b, hb, hm⟩ := cur.made i p hp
  have hknown : ∀ l < p.model.depth, p.model.var l < s.world.domains.size := by
    obtain ⟨r, -, hk, hu⟩ := hm
    exact fun l hl => Nat.lt_of_lt_of_le (hk l hl) hu.size
  exact (cur.stands i p d hp hd).exists_path (hP.accepted hm hw (hσ.1 b hb)) fun l hl => hw _ (hknown l hl)

end DecisionDiagrams
