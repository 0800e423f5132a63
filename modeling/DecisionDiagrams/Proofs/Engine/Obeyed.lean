import DecisionDiagrams.Proofs.Engine.Agreement
import DecisionDiagrams.Proofs.Engine.Founding

/-! A propagation of a diagram keeps its laws, and once it succeeds no node waits any more: a relaxed
diagram ends its passes with an empty agenda, and an exact one never needs the agenda. So the laws hold
without any excuse. -/

namespace DecisionDiagrams

open Work

variable {p : Plan} {stale : Nat → Prop} {d : Direction} {L : Law p d} {w w' : Workspace}

/-! ### Passes -/

theorem sweeper_upholds (hp : p.Distinct) (hx : p.options.isExact = false) (hm : p.model.ReadsOwn) (fuel : Nat)
    (v : Workspace) : Sweeper p fuel (Upholds stale L p.model.depth {} v) fun _ _ => True where
  tally f k := k.quiet (.tally f _)
  exhausted _ := trivial
  up _ _ layer k := (secures_recomputeLayer hp hx hm .up layer k.2).upholds k
  down layer k := (secures_recomputeLayer hp hx hm .down layer k.2).upholds k
  split hd k := (secures_splitNodes hp hx hm hd _ fuel [] k.2).upholds k

theorem secures_sweepUp (hp : p.Distinct) (hx : p.options.isExact = false) (hm : p.model.ReadsOwn)
    (hup : p.model.hasUp = true) (fuel : Nat) (h : Lawful L p.model.depth {} ([], w)) :
    Secures p stale (sweepUp p fuel) (fun _ w' => Lawful L p.model.depth {} ([], w')) w :=
  .of_upholds fun ht => (sweeper_upholds hp hx hm fuel w).sweepUp hup fuel ⟨⟨ht, .refl w⟩, h⟩

/-! ### Propagations -/

/-- The laws hold of what is left when the values without an arc were taken out. -/
theorem Lawful.trims (h : Lawful L p.model.depth {} ([], w)) (ht : Trims p w w') :
    Lawful L p.model.depth {} ([], w') :=
  h.congr ht.graph ht.upKnown (by rw [ht.agenda]; exact .refl _)

/-- Where nothing waits no node has an excuse. -/
theorem Lawful.of_calm {n : NodeId} (h : Lawful L p.model.depth {} ([], w))
    (calm : p.options.isExact = false → w.agenda.waiting d (w.graph.layerOf n) = []) (on : w.graph.isActive n = true)
    (hs : w.Sown p d n) (o : Option Nat) : L.Of w n o := by
  refine (h.abide n on hs id o).resolve_left ?_
  rintro ⟨hx, hw | hw | hw | ⟨_, _, _, hw⟩⟩
  · rw [show ([], w).2.agenda.waiting d (([], w).2.graph.layerOf n) = [] from calm hx] at hw
    obtain ⟨r, hr, -⟩ := hw
    cases hr
  · obtain ⟨r, hr, -⟩ := hw
    cases hr
  · cases hw
  · exact hw

/-- While nothing waits no node has an excuse. -/
theorem Lawful.rested {v : Workspace} (h : Lawful L p.model.depth {} ([], w))
    (hq : p.options.isExact = false → w.agenda.isEmpty = true) (hg : v.graph = w.graph)
    (hu : v.upKnown = w.upKnown) (hsized : ∀ e, (v.agenda.get e).size = p.model.depth + 1) :
    Lawful L p.model.depth {} ([], v) ∧
      ∀ n, v.graph.isActive n = true → v.Sown p d n → ∀ o, L.Of v n o := by
  have holds : ∀ n, w.graph.isActive n = true → w.Sown p d n → ∀ o, L.Of w n o := fun n on hs o =>
    h.of_calm (fun hx => Agenda.isEmpty_iff.1 (hq hx) _ _) on hs o
  have holds' : ∀ n, v.graph.isActive n = true → v.Sown p d n → ∀ o, L.Of v n o := fun n on hs o => by
    rw [hg] at on
    refine (holds n on (hs.congr (by rw [hg]) hu.symm) o).congr (by rw [hg]) (fun m => by rw [hg]) ?_
    exact Workspace.enters_congr (fun _ => by rw [hg]) (fun _ => by rw [hg]) (fun _ => by rw [hg])
      fun _ => by rw [hg]
  have whole : Whole p L.label p.model.depth (fun _ => False) ([], v) := by
    have hw := h.toWhole
    refine ⟨hw.fed.congr hg, ?_, ?_, ?_, ?_, ?_, ?_, hsized⟩
    · show Reached ([], v)
      unfold Reached
      rw [hg]
      exact hw.reached
    · rw [hg]; exact hw.low
    · show Sole v 0
      unfold Sole
      rw [hg]
      exact hw.root
    · rw [hg]; exact hw.seed
    · intro e
      show Sole v p.model.depth
      unfold Sole
      rw [hg]
      exact hw.sink e
    · rw [hg]; exact hw.labelled
  exact ⟨⟨whole, fun n on hs _ o => Or.inr (holds' n on hs o)⟩, holds'⟩

/-- Where a propagation may begin: with a diagram which obeys its laws, or with one which is not built
yet. -/
def Startable (L : Law p d) (w : Workspace) : Prop :=
  w.built = true ∧ Lawful L p.model.depth {} ([], w) ∨
    w.built = false ∧ w.upKnown = (!p.model.hasUp) ∧ (∃ k, w.graph = Graph.withLayers k) ∧
      (∀ e, (w.agenda.get e).size = p.model.depth + 1) ∧
      ∀ l < p.model.depth, ∀ v, w.domains.contains (p.model.var l) v = true → L.label l v

/-- A diagram which was just built obeys its laws. -/
theorem Startable.grows (hp : p.Distinct) {width : Option Nat} (hw : width ≠ some 0) (ht : Tidy p stale [] w)
    (h : Startable L w) (new : w.built = false) :
    wp (grow p width) (fun _ w' => Tidy p stale [] w' ∧ Lawful L p.model.depth {} ([], w')) (fun _ _ => True) w := by
  obtain ⟨hb, -⟩ | ⟨-, hu, ⟨k, hg⟩, hsized, hlab⟩ := h
  · exact absurd (hb.symm.trans new) nofun
  · exact wp.mono (wp_grow_founded hp hw hg hu hsized hlab ht) (fun _ _ h => ⟨h.1, h.2.1⟩) fun _ _ _ => trivial

/-- One which was built before obeys them already. -/
theorem Startable.lawful (h : Startable L w) (old : w.built = true) : Lawful L p.model.depth {} ([], w) := by
  obtain ⟨-, h⟩ | ⟨hb, -⟩ := h
  · exact h
  · exact absurd (old.symm.trans hb) nofun

theorem wp_maintainExact_lawful (hp : p.Distinct) (lost : List Nat) (ht : Tidy p stale [] w)
    (h : Startable L w) :
    wp (maintainExact p lost) (fun _ w' => Lawful L p.model.depth {} ([], w')) (fun _ _ => True) w := by
  refine wp_maintainExact_of (fun w' => Lawful L p.model.depth {} ([], w')) (fun new => ?_) (fun old => ?_)
    fun w' k => ?_
  · exact wp.mono (h.grows hp (by simp) ht new) (fun _ _ k => k.2) fun _ _ _ => trivial
  · exact wp.mono (secures_enforceDomains hp (h.lawful old) lost ht) (fun _ _ k => k.2.2) fun _ _ _ => trivial
  · exact wp.mono (wp_enforceSupports hp w') (fun _ _ l => k.trims l.1) fun _ _ _ => trivial

/-- The first up states are computed if there are any. -/
theorem secures_completeNodes (hp : p.Distinct) (hx : p.options.isExact = false)
    (h : Lawful L p.model.depth {} ([], w)) :
    Secures p stale (completeNodes p) (fun _ w' => Lawful L p.model.depth {} ([], w')) w := by
  cases d with
  | down => exact secures_completeNodes_down hp h
  | up => exact secures_completeNodes_up hp hx ⟨{ h.toWhole with }, fun _ _ _ hl => absurd trivial hl⟩

theorem wp_maintainRelaxed_lawful (hp : p.Distinct) (hx : p.options.isExact = false)
    (ho : p.options.isValid = true) (hm : p.model.ReadsOwn) (fuel : Nat) (lost : List Nat)
    (ht : Tidy p stale [] w) (h : Startable L w) :
    wp (maintainRelaxed p fuel lost)
      (fun _ w' => Lawful L p.model.depth {} ([], w') ∧ w'.agenda.isEmpty = true) (fun _ _ => True) w := by
  let I : Workspace → Prop := fun w' => Tidy p stale [] w' ∧ Lawful L p.model.depth {} ([], w')
  have on : ∀ {x : Work PUnit} {w'}, Secures p stale x (fun _ w'' => Lawful L p.model.depth {} ([], w'')) w' → I w' →
      wp x (fun _ => I) (fun _ _ => True) w' := fun hx k =>
    wp.mono (hx k.1) (fun _ _ l => ⟨l.1, l.2.2⟩) fun _ _ _ => trivial
  refine wp_maintainRelaxed_of I I I (fun w' => I w' ∧ w'.agenda.isEmpty = true)
    (h.grows hp (Options.firstWidth_ne_zero ho) ht) (fun _ _ k => on (secures_completeNodes hp hx k.2) k) (fun _ _ k => k)
    (fun old => ⟨ht, h.lawful old⟩) (fun _ k => on (secures_enforceDomains hp k.2 lost) k) (fun w' k _ => ?_)
    (fun _ _ k empty => ⟨k, empty⟩) fun w' k => ?_
  · exact wp.mono ((sweeper_upholds hp hx hm fuel w').passes fuel 0 ⟨⟨k.1, .refl w'⟩, k.2⟩)
      (fun _ _ l => ⟨⟨l.1.1.1, l.1.2⟩, l.2⟩) fun _ _ _ => trivial
  · exact wp.mono (wp_enforceSupports hp w') (fun _ _ l => ⟨k.1.2.trims l.1, by rw [l.1.agenda]; exact k.2⟩)
      fun _ _ _ => trivial

end DecisionDiagrams
