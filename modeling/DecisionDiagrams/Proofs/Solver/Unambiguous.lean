import DecisionDiagrams.Proofs.Engine.PathCount
import DecisionDiagrams.Proofs.Solver.Assignments
import DecisionDiagrams.Proofs.Solver.Proper

/-! Paths and assignments. In every run the paths of a diagram are told apart by their labels, so that the
number of paths is the number of assignments, as far as numbers of 128 bits go. -/

namespace DecisionDiagrams

open Work Cascade

/-! ### One path for each assignment -/

theorem Deterministic.eq_of_labels {w : Workspace} (h : Deterministic w) (hw : w.graph.Wf) {depth : Nat} :
    ∀ {as bs : List ArcId} {n : NodeId}, w.graph.IsPath depth n as → w.graph.IsPath depth n bs →
      w.graph.labels as = w.graph.labels bs → as = bs
  | [], [], _, _, _, _ => rfl
  | [], _ :: _, _, _, _, e => by cases e
  | _ :: _, [], _, _, _, e => by cases e
  | a :: as, b :: bs, n, ha, hb, e => by
    obtain ⟨hv, he⟩ := List.cons.inj e
    obtain ⟨ona, hpa⟩ := hw.mem_outgoing.1 ha.1
    obtain ⟨onb, hpb⟩ := hw.mem_outgoing.1 hb.1
    obtain rfl := h.single a b ona onb (hpa.trans hpb.symm) hv
    rw [h.eq_of_labels hw ha.2 hb.2 he]

theorem Deterministic.eq_of_root {w : Workspace} (h : Deterministic w) (hw : w.graph.Wf) {n m : NodeId}
    (hn : n ∈ w.graph.layer 0) (hm : m ∈ w.graph.layer 0) : n = m := by
  obtain ⟨hn, hnl⟩ := hw.mem_layer.1 hn
  obtain ⟨hm, hml⟩ := hw.mem_layer.1 hm
  exact h.roots n m hn hm hnl hml

theorem Deterministic.eq_of_fullPath {w : Workspace} (h : Deterministic w) (hw : w.graph.Wf) {depth : Nat}
    {as bs : List ArcId} (ha : w.graph.IsFullPath depth as) (hb : w.graph.IsFullPath depth bs)
    (he : w.graph.labels as = w.graph.labels bs) : as = bs := by
  obtain ⟨n, hn, ha⟩ := ha
  obtain ⟨m, hm, hb⟩ := hb
  obtain rfl := h.eq_of_root hw hn hm
  exact h.eq_of_labels hw ha hb he

/-- The paths of a diagram are told apart by their labels, and their number is that of the assignments. -/
structure Diagram.Unambiguous (p : Plan) (d : Diagram) : Prop where
  single : ∀ n, ∀ a ∈ d.graph.outgoing n, ∀ b ∈ d.graph.outgoing n,
    (d.graph.arc a).value = (d.graph.arc b).value → a = b
  once : ∀ as bs, d.graph.IsFullPath p.model.depth as → d.graph.IsFullPath p.model.depth bs →
    d.graph.labels as = d.graph.labels bs → as = bs
  finite : (d.graph.assignments p.model.depth).Finite
  counted : d.graph.shape.paths = min (d.graph.assignments p.model.depth).ncard (2 ^ 128 - 1)

/-- The assignments are listed by the paths which are counted. -/
theorem Deterministic.tells_apart {p : Plan} {stale : Nat → Prop} {d : Diagram} {s : Domains}
    (h : Deterministic (d.workspace p s)) (ht : Tidy p stale [] (d.workspace p s)) : d.Unambiguous p := by
  have hw : d.graph.Wf := ht.wf
  have paths : ∀ as, as ∈ d.graph.fullRoutes p.model.depth ↔ d.graph.IsFullPath p.model.depth as := fun as =>
    Graph.mem_fullRoutes hw fun a on => ht.parent_active on
  have once : ∀ as bs, d.graph.IsFullPath p.model.depth as → d.graph.IsFullPath p.model.depth bs →
      d.graph.labels as = d.graph.labels bs → as = bs := fun as bs ha hb => h.eq_of_fullPath hw ha hb
  have listed : d.graph.assignments p.model.depth =
      ((d.graph.fullRoutes p.model.depth).map d.graph.labels).toFinset := by
    ext vs
    simp only [Graph.assignments, Set.mem_ofPred_eq, List.coe_toFinset, List.mem_map, paths]
  have nodup : ((d.graph.fullRoutes p.model.depth).map d.graph.labels).Nodup :=
    (Graph.nodup_fullRoutes hw (fun n m hn hm => h.eq_of_root hw hn hm) _).map_on fun as ha bs hb =>
      once as bs ((paths as).1 ha) ((paths bs).1 hb)
  refine ⟨fun n a ha b hb => ?_, once, listed ▸ Finset.finite_toSet _, ?_⟩
  · obtain ⟨ona, hpa⟩ := hw.mem_outgoing.1 ha
    obtain ⟨onb, hpb⟩ := hw.mem_outgoing.1 hb
    exact h.single a b ona onb (hpa.trans hpb.symm)
  · have layers : d.graph.layerCount = p.model.depth + 1 := ht.layers
    show d.graph.numPaths = _
    rw [Graph.numPaths_eq hw (by omega), layers, Nat.add_sub_cancel, listed, Set.ncard_coe_finset,
      List.toFinset_card_of_nodup nodup, List.length_map]
    rfl

/-! ### In every run -/

/-- The diagram agrees with the domains, and has one root and no two arcs with one label at a node. -/
def Univocal : Standing := fun p stale d s => Agrees p stale d s ∧ Deterministic (d.workspace p s)

theorem Univocal.upheld {β : Type} {R : Rules β}
    (hR : ∀ s b p, R.plan s b p → p.Distinct ∧ p.options.isValid = true) :
    R.Upholds (fun _ _ => False) (fun _ _ => False) Univocal := by
  have agrees : R.Upholds (fun _ _ => False) (fun _ _ => False) Agrees := Agrees.upheld hR
  exact {
    under := agrees.under
    known := agrees.known
    distinct := agrees.distinct
    accepted := fun _ _ h => h
    adapt := fun h hle hst hlost => ⟨agrees.adapt h.1 hle hst hlost, ⟨h.2.single, h.2.roots⟩⟩
    first := by
      intro p s fuel lost hfits
      refine { agrees.first fuel lost hfits with stands := fun he => ⟨(agrees.first fuel lost hfits).stands he, ?_⟩ }
      obtain ⟨b, r, hp, -, -⟩ := hfits
      obtain ⟨w', hd, hs, hok, -⟩ := Diagram.propagate_of_wp (determined_first (hR r b p hp).1 (hR r b p hp).2 fuel
        lost rfl rfl (tidy_initial p (fun _ => False) s) (Diagram.suits_workspace _ p s))
      have hdet := (hok he).2
      rw [hd, hs]
      exact ⟨hdet.single, hdet.roots⟩
    again := by
      intro p stale d s fuel lost hfits hb h
      refine { agrees.again fuel lost hfits hb h.1 with stands := fun he => ⟨(agrees.again fuel lost hfits hb h.1).stands he, ?_⟩ }
      obtain ⟨w', hd, hs, hok, -⟩ := Diagram.propagate_of_wp
        (traces_maintain fuel lost hb (Diagram.filed_of_built hb h.1.1.toCensus))
      have hdet := (hok he).2.deterministic h.2
      rw [hd, hs]
      exact ⟨hdet.single, hdet.roots⟩ }

theorem Rules.free_upholds_univocal :
    Rules.free.Upholds (fun _ _ => False) (fun _ _ => False) Univocal :=
  Univocal.upheld fun _ _ _ hp => ⟨hp.distinct, hp.valid⟩

/-- In every run over specifications the paths of the diagrams are told apart by their labels and counted right,
as long as no conflict is left open, and in the course of a propagation they are so for each diagram as soon as
it was called without failing. -/
theorem Run.unambiguous {h : Story Spec} {s : Solver} (run : Run .free h s) (calm : h.calm = true) {t : Solver}
    {i : Nat} (here : t = s ∨ ∃ o, s.Starts .free o ∧ o.Succeeds i t) {p : Plan} {d : Diagram}
    (plan : t.planAt i = some p) (diagram : t.world.diagrams[i]? = some d) : d.Unambiguous p := by
  rcases here with rfl | ⟨o, starts, called⟩
  · obtain ⟨ht, hd⟩ := ((run.consistent Rules.free_upholds_univocal).current calm).stands i p d plan diagram
    exact hd.tells_apart ht.1
  · obtain ⟨_, ht, hd⟩ := run.stands_of_call Rules.free_upholds_univocal calm starts called plan diagram
    exact hd.tells_apart ht.1

theorem Run.unambiguous_alternating :
    ((Alternating.recovered.propagate.2.world.diagrams[0]?).getD default).Unambiguous
      ((Alternating.recovered.propagate.2.planAt 0).getD Alternating.narrow) := by
  obtain ⟨h, run, calm⟩ := Alternating.run_recovered
  have run' := run.propagate calm Alternating.propagate_recovered
  have plan := Lone.eq_some_getD (Option.isSome_of_eq_some Alternating.planAt_recovered) Alternating.narrow
  have diagram := Solver.diagram_eq_getD run' Alternating.planAt_recovered default
  exact Run.unambiguous run' calm (Or.inl rfl) plan diagram

end DecisionDiagrams
