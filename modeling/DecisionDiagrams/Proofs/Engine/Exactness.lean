import DecisionDiagrams.Proofs.Engine.Extending
import DecisionDiagrams.Proofs.Engine.Agreement
import DecisionDiagrams.Proofs.Spec.Tuples
import Mathlib.Data.List.Nodup

/-! Diagrams without a width. A node stands for one down state, and only the sink for several. So an
arc is a transition of the model which the tests accept, and a node has at most one arc with a label.
Every accepted tuple in the domains keeps its trail, from the building of the diagram on. -/

namespace DecisionDiagrams

open Work Cascade

/-- The nodes and arcs are the states and transitions of the model. -/
structure Exact (p : Plan) (w : Workspace) : Prop where
  upKnown : w.upKnown = !p.model.hasUp
  combined : ∀ n, w.graph.isActive n = true →
    p.model.besides (w.graph.state n .down) = .ok (w.combined? p.model n)
  leads : ∀ a, w.graph.arcIsActive a = true →
    ∃ s, p.model.Leads (w.graph.layerOf (w.graph.arc a).parent)
        (w.graph.state (w.graph.arc a).parent .down) (w.graph.arc a).value s ∧
      (w.graph.layerOf (w.graph.arc a).parent + 1 ≠ p.model.depth →
        s = w.graph.state (w.graph.arc a).child .down)
  single : ∀ a b, w.graph.arcIsActive a = true → w.graph.arcIsActive b = true →
    (w.graph.arc a).parent = (w.graph.arc b).parent →
    (w.graph.arc a).value = (w.graph.arc b).value → a = b
  root : ∀ n, w.graph.isActive n = true → w.graph.layerOf n = 0 →
    w.graph.state n .down = p.model.fresh .down
  roots : ∀ n m, w.graph.isActive n = true → w.graph.isActive m = true →
    w.graph.layerOf n = 0 → w.graph.layerOf m = 0 → n = m

/-- The branches of a layer, each once. -/
theorem nodup_acceptedBranches {p : Plan} {layer : Nat} {w : Workspace} (hw : w.graph.Wf) :
    (acceptedBranches p layer w).Nodup :=
  ((hw.nodup_layer layer).product (w.domains.nodup_values (p.model.var layer))).filter _

theorem map_draftArcs : ∀ (ds : List Draft) (start : Nat),
    (draftArcs start ds).map (fun t => (t.1, t.2.1)) = branches ds
  | [], _ => rfl
  | d :: ds, start => by
    have ih := map_draftArcs ds (start + 1)
    unfold draftArcs at ih ⊢
    rw [List.zipIdx_cons, List.flatMap_cons, List.map_append, ih, List.map_map]
    show d.arcs.toList.map id ++ _ = _
    rw [List.map_id]
    rfl

/-- There is one root, and a node has at most one arc with a label. -/
structure Deterministic (w : Workspace) : Prop where
  single : ∀ a b, w.graph.arcIsActive a = true → w.graph.arcIsActive b = true →
    (w.graph.arc a).parent = (w.graph.arc b).parent →
    (w.graph.arc a).value = (w.graph.arc b).value → a = b
  roots : ∀ n m, w.graph.isActive n = true → w.graph.isActive m = true →
    w.graph.layerOf n = 0 → w.graph.layerOf m = 0 → n = m

namespace Deterministic

variable {p : Plan} {w w' : Workspace} {layer : Nat} {width : Option Nat} {ds : List Draft}

theorem shrink (h : Deterministic w) (hs : Shrinks w w') : Deterministic w' where
  single a b ha hb := by
    rw [hs.parent, hs.parent, hs.value, hs.value]
    exact h.single a b (hs.arcActive a ha) (hs.arcActive b hb)
  roots n m hn hm hl hk :=
    h.roots n m (hs.active n hn) (hs.active m hm) (by rwa [hs.layerOf] at hl)
      (by rwa [hs.layerOf] at hk)

/-- A layer which is added holds every branch once. -/
theorem layered (h : Deterministic w) (hw : w.graph.Wf)
    (low : ∀ n < w.graph.nodes.size, w.graph.layerOf n ≤ layer)
    (hl : Layered p width layer w w' ds) : Deterministic w' := by
  -- the old arcs come from the layers before
  have apart : ∀ {a b}, w.graph.arcIsActive a = true → w'.graph.arc a = w.graph.arc a →
      w.graph.arcs.size ≤ b → b < w'.graph.arcs.size →
      (w'.graph.arc a).parent ≠ (w'.graph.arc b).parent := by
    intro a b ha ea hge hlt e
    have hlow := low _ (hw.child_lt ha)
    rw [hw.adjacent a ha, ← ea, e, (hl.new_arc hw hge hlt).2.1] at hlow
    exact Nat.not_succ_le_self _ hlow
  refine ⟨fun a b ha hb hp hv => ?_, fun n m hn hm hr hs => ?_⟩
  · rcases hl.arc_cases ha with ⟨hona, ea⟩ | ⟨hgea, hlta⟩
    · rcases hl.arc_cases hb with ⟨honb, eb⟩ | ⟨hgeb, hltb⟩
      · rw [ea, eb] at hp hv
        exact h.single a b hona honb hp hv
      · exact absurd hp (apart hona ea hgeb hltb)
    · rcases hl.arc_cases hb with ⟨honb, eb⟩ | ⟨hgeb, hltb⟩
      · exact absurd hp.symm (apart honb eb hgea hlta)
      · have hn : ((w'.graph.arcsFrom w.graph.arcs.size).map fun t => (t.1, t.2.1)).Nodup := by
          rw [hl.laid.newArcs, map_draftArcs]
          exact hl.drafted.perm.nodup_iff.2 (nodup_acceptedBranches hw)
        unfold Graph.arcsFrom at hn
        rw [List.map_map] at hn
        refine List.inj_on_of_nodup_map hn (List.mem_range'_1.2 ⟨hgea, ?_⟩)
          (List.mem_range'_1.2 ⟨hgeb, ?_⟩) (Prod.ext hp hv)
        · rwa [Nat.add_sub_cancel' hl.laid.sizes]
        · rwa [Nat.add_sub_cancel' hl.laid.sizes]
  · have old : ∀ {k}, w'.graph.isActive k = true → w'.graph.layerOf k = 0 →
        w.graph.isActive k = true ∧ w.graph.layerOf k = 0 := by
      intro k hk h0
      have hlt := hl.old_of_layerOf (Graph.lt_of_isActive _ hk) (by rw [h0]; exact (Nat.succ_ne_zero _).symm)
      rw [hl.laid.isActive hlt] at hk
      rw [hl.laid.layerOf hlt] at h0
      exact ⟨hk, h0⟩
    exact h.roots n m (old hn hr).1 (old hm hs).1 (old hn hr).2 (old hm hs).2

end Deterministic

namespace Exact

variable {p : Plan} {w w' : Workspace}

theorem deterministic (h : Exact p w) : Deterministic w := ⟨h.single, h.roots⟩

/-- Taking away keeps what is left exact. -/
theorem shrink (h : Exact p w) (hs : Shrinks w w') : Exact p w' where
  upKnown := hs.upKnown.trans h.upKnown
  combined n hn := by
    have e : w'.combined? p.model n = w.combined? p.model n := by
      unfold Workspace.combined? Workspace.combinedKnown
      rw [hs.upKnown, hs.state]
    rw [e, hs.state]
    exact h.combined n (hs.active n hn)
  leads a ha := by
    rw [hs.parent, hs.child, hs.value, hs.layerOf, hs.state, hs.state]
    exact h.leads a (hs.arcActive a ha)
  single := (h.deterministic.shrink hs).single
  root n hn hl := by
    rw [hs.state]
    exact h.root n (hs.active n hn) (by rwa [hs.layerOf] at hl)
  roots := (h.deterministic.shrink hs).roots

theorem congr (h : Exact p w) (hg : w'.graph = w.graph) (hu : w'.upKnown = w.upKnown) :
    Exact p w' := by
  refine ⟨hu.trans h.upKnown, ?_, ?_, ?_, ?_, ?_⟩
  · unfold Workspace.combined? Workspace.combinedKnown
    rw [hg, hu]
    exact h.combined
  · rw [hg]; exact h.leads
  · rw [hg]; exact h.single
  · rw [hg]; exact h.root
  · rw [hg]; exact h.roots

variable {layer : Nat} {ds : List Draft}

/-- A branch which the tests accept is a transition of the model. -/
theorem leads_of_accepts (h : Exact p w) {n : NodeId} {v : Int} {s : State}
    (hn : w.graph.isActive n = true) (ha : w.accepts p layer (n, v) = .ok true)
    (hs : w.follows p layer (n, v) = .ok s) :
    p.model.Leads layer (w.graph.state n .down) v s := ⟨_, h.combined n hn, ha, hs⟩

theorem accepts_of_leads (h : Exact p w) {n : NodeId} {v : Int} {s : State}
    (hn : w.graph.isActive n = true) (hl : p.model.Leads layer (w.graph.state n .down) v s) :
    w.accepts p layer (n, v) = .ok true ∧ w.follows p layer (n, v) = .ok s := by
  obtain ⟨c, hc, ha, hs⟩ := hl
  obtain rfl := Except.ok.inj (hc.symm.trans (h.combined n hn))
  exact ⟨ha, hs⟩

theorem combined_of_statesWith (h : Exact p w) {v : Workspace} (hu : v.upKnown = w.upKnown)
    {n : NodeId} {down : State}
    (hs : w.statesWith p.model down (p.model.fresh .up) = .ok (v.graph.node n).states) :
    v.graph.state n .down = down ∧
      p.model.besides (v.graph.state n .down) = .ok (v.combined? p.model n) := by
  obtain ⟨combined, hc, e⟩ : ∃ combined, (if w.combinedKnown p.model then
      p.model.derive down (p.model.fresh .up) else .ok (p.model.fresh .combined)) = .ok combined ∧
      (⟨down, p.model.fresh .up, combined⟩ : BySide State) = (v.graph.node n).states := by
    unfold Workspace.statesWith at hs
    dsimp only at hs
    split_ifs at hs ⊢
    · obtain ⟨combined, hc, e⟩ := Checked.bind_eq_ok.1 hs
      exact ⟨combined, hc, Except.ok.inj e⟩
    · exact ⟨_, rfl, Except.ok.inj hs⟩
  have hd : v.graph.state n .down = down := by
    show (v.graph.node n).states.get .down = down
    rw [← e]
    rfl
  have hcomb : v.graph.state n .combined = combined := by
    show (v.graph.node n).states.get .combined = combined
    rw [← e]
    rfl
  refine ⟨hd, ?_⟩
  rw [hd]
  unfold Model.besides Workspace.combined?
  unfold Workspace.combinedKnown at hc ⊢
  rw [hu, h.upKnown, hcomb]
  rw [h.upKnown] at hc
  split_ifs with hk
  · rw [if_pos hk] at hc
    rw [hc]
    rfl
  · rfl

/-- A new layer of an exact diagram is exact. -/
theorem layered (h : Exact p w) (hc : Census p w)
    (low : ∀ n < w.graph.nodes.size, w.graph.layerOf n ≤ layer)
    (hl : Layered p none layer w w' ds) : Exact p w' := by
  have hdet := h.deterministic.layered hc.wf low hl
  refine ⟨hl.laid.upKnown.trans h.upKnown, fun n hn => ?_, fun a ha => ?_, hdet.single,
    fun n hn hr => ?_, hdet.roots⟩
  · rcases hl.node_cases (Graph.lt_of_isActive _ hn) with hlt | ⟨i, d, hd, rfl⟩
    · have e : w'.combined? p.model n = w.combined? p.model n := by
        unfold Workspace.combined? Workspace.combinedKnown
        rw [hl.laid.upKnown, hl.laid.state hlt]
      rw [e, hl.laid.state hlt]
      exact h.combined n (by rwa [hl.laid.isActive hlt] at hn)
    · exact (h.combined_of_statesWith hl.laid.upKnown (hl.laid.newNode i d hd).2.2).2
  · rcases hl.arc_cases ha with ⟨hon, e⟩ | ⟨hge, hlt⟩
    · have hpar := hc.wf.parent_lt hon
      have hch := hc.wf.child_lt hon
      rw [e, hl.laid.layerOf hpar, hl.laid.state hpar, hl.laid.state hch]
      exact h.leads a hon
    · obtain ⟨i, d, hd, hb, hch⟩ := hl.branch_of_arc hge hlt
      obtain ⟨hon, hlay, -, hacc⟩ := hl.new_arc hc.wf hge hlt
      have hpar := Graph.lt_of_isActive _ hon
      obtain ⟨s, hs⟩ : ∃ s, w.follows p layer ((w'.graph.arc a).parent, (w'.graph.arc a).value)
          = .ok s := by
        obtain ⟨ss, hf, -⟩ := hl.drafted.reaches d (List.mem_of_getElem? hd)
        obtain ⟨j, hj, e⟩ := List.getElem_of_mem (Array.mem_toList_iff.2 hb)
        have := hf.get hj (hf.length_eq ▸ hj)
        rw [List.get_eq_getElem, e] at this
        exact ⟨_, this⟩
      refine ⟨s, ?_, fun hne => ?_⟩
      · rw [hl.laid.layerOf hpar, hl.laid.state hpar, hlay]
        exact h.leads_of_accepts hon hacc hs
      · rw [hl.laid.layerOf hpar, hlay] at hne
        rw [hch, (h.combined_of_statesWith hl.laid.upKnown (hl.laid.newNode i d hd).2.2).1]
        have := hl.single rfl hne d (List.mem_of_getElem? hd) _ hb
        exact Except.ok.inj (hs.symm.trans this)
  · have hlt := hl.old_of_layerOf (Graph.lt_of_isActive _ hn) (by rw [hr]; exact (Nat.succ_ne_zero _).symm)
    rw [hl.laid.state hlt]
    exact h.root n (by rwa [hl.laid.isActive hlt] at hn) (by rwa [hl.laid.layerOf hlt] at hr)

end Exact
end DecisionDiagrams
