import DecisionDiagrams.Proofs.Engine.Layering

/-! A layer which is added to a diagram. Its nodes have arcs from the layer before, one for each branch
which the tests accept, and a trail to the layer before goes on along any such branch. -/

namespace DecisionDiagrams

open Work Cascade

/-- A graph with the root as its only node. -/
structure Graph.Sole (states : BySide State) (g : Graph) : Prop where
  only : ∀ n < g.nodes.size, n = 0
  isActive : g.isActive 0 = true
  layerOf : g.layerOf 0 = 0
  states : (g.node 0).states = states
  bare : ∀ a, g.arcIsActive a ≠ true

namespace Graph.Sole

variable {states : BySide State} {g : Graph}

theorem addNode {w : Workspace} {k : Nat} (hg : w.graph = Graph.withLayers k) (states : BySide State) :
    Sole states (w.addNode 0 states).2.graph := by
  have hsize : w.graph.nodes.size = 0 := by rw [hg]; rfl
  have hself : (w.addNode 0 states).2.graph.node 0 =
      { layer := 0, position := w.graph.width 0, active := true, states, outgoing := #[],
        incoming := #[] } := by
    have := Graph.node_appendNode_self w.graph 0 states
    rwa [hsize] at this
  refine ⟨fun n hn => ?_, by rw [Graph.isActive, hself], by rw [Graph.layerOf, hself], by rw [hself],
    fun a ha => ?_⟩
  · have hn' : n < (w.graph.appendNode 0 states).2.nodes.size := hn
    rw [Graph.size_appendNode, hsize] at hn'
    exact Nat.lt_one_iff.1 hn'
  · have hlt : a < w.graph.arcs.size := Graph.lt_of_arcIsActive _ ha
    rw [hg] at hlt
    exact Nat.not_lt_zero a hlt

theorem only_active (h : Sole states g) {n : NodeId} (hn : g.isActive n = true) : n = 0 :=
  h.only n (Graph.lt_of_isActive _ hn)

theorem low (h : Sole states g) : ∀ n < g.nodes.size, g.layerOf n ≤ 0 := fun n hn => by
  rw [h.only n hn]
  exact Nat.le_of_eq h.layerOf

end Graph.Sole

namespace Layered

variable {p : Plan} {stale : Nat → Prop} {width : Option Nat} {layer : Nat} {w w' : Workspace}
  {ds : List Draft}

/-- Where the new arcs come from. -/
theorem branch_of_arc (h : Layered p width layer w w' ds) {a : ArcId} (ha : w.graph.arcs.size ≤ a)
    (hlt : a < w'.graph.arcs.size) :
    ∃ (i : Nat) (d : Draft), ds[i]? = some d ∧ ((w'.graph.arc a).parent, (w'.graph.arc a).value) ∈ d.arcs ∧
      (w'.graph.arc a).child = w.graph.nodes.size + i := by
  have hm : ((w'.graph.arc a).parent, (w'.graph.arc a).value, (w'.graph.arc a).child) ∈
      w'.graph.arcsFrom w.graph.arcs.size :=
    Graph.mem_arcsFrom.2 ⟨a, ha, hlt, rfl, rfl, rfl⟩
  rw [h.laid.newArcs] at hm
  exact mem_draftArcs.1 hm

theorem arc_of_draft (h : Layered p width layer w w' ds) {i : Nat} {d : Draft} (hd : ds[i]? = some d)
    {b : Branch} (hb : b ∈ d.arcs) :
    ∃ a, w.graph.arcs.size ≤ a ∧ w'.graph.arcIsActive a = true ∧ (w'.graph.arc a).parent = b.1 ∧
      (w'.graph.arc a).value = b.2 ∧ (w'.graph.arc a).child = w.graph.nodes.size + i := by
  have hm : (b.1, b.2, w.graph.nodes.size + i) ∈ w'.graph.arcsFrom w.graph.arcs.size := by
    rw [h.laid.newArcs]
    exact mem_draftArcs.2 ⟨i, d, hd, hb, rfl⟩
  obtain ⟨a, h1, h2, h3, h4, h5⟩ := Graph.mem_arcsFrom.1 hm
  exact ⟨a, h1, h.laid.newActive a h1 h2, h3, h4, h5⟩

/-- Every accepted branch is an arc. -/
theorem arc_of_branch (h : Layered p width layer w w' ds) {b : Branch}
    (hb : b ∈ acceptedBranches p layer w) :
    ∃ (i : Nat) (d : Draft) (a : ArcId), ds[i]? = some d ∧ b ∈ d.arcs ∧ w.graph.arcs.size ≤ a ∧
      w'.graph.arcIsActive a = true ∧ (w'.graph.arc a).parent = b.1 ∧
      (w'.graph.arc a).value = b.2 ∧ (w'.graph.arc a).child = w.graph.nodes.size + i := by
  obtain ⟨d, hd, hbd⟩ := List.mem_flatMap.1 (h.drafted.perm.symm.subset hb)
  obtain ⟨i, hi⟩ := List.getElem?_of_mem hd
  obtain ⟨a, ha⟩ := h.arc_of_draft hi (Array.mem_toList_iff.1 hbd)
  exact ⟨i, d, a, hi, Array.mem_toList_iff.1 hbd, ha⟩

/-- A branch of a draft is accepted. -/
theorem branch_of_draft (h : Layered p width layer w w' ds) {i : Nat} {d : Draft}
    (hd : ds[i]? = some d) {b : Branch} (hb : b ∈ d.arcs) : b ∈ acceptedBranches p layer w :=
  h.drafted.perm.subset
    (List.mem_flatMap.2 ⟨d, List.mem_of_getElem? hd, Array.mem_toList_iff.2 hb⟩)

/-- The arcs are those from before and those of the drafts. -/
theorem arc_cases (h : Layered p width layer w w' ds) {a : ArcId} (ha : w'.graph.arcIsActive a = true) :
    w.graph.arcIsActive a = true ∧ w'.graph.arc a = w.graph.arc a ∨
      w.graph.arcs.size ≤ a ∧ a < w'.graph.arcs.size := by
  rcases Nat.lt_or_ge a w.graph.arcs.size with hlt | hge
  · exact Or.inl ⟨h.laid.evolves.arcActive a hlt ha, h.laid.oldArc a hlt⟩
  · exact Or.inr ⟨hge, Graph.lt_of_arcIsActive _ ha⟩

/-- The new arcs come from nodes of the layer, along accepted branches. -/
theorem new_arc (h : Layered p width layer w w' ds) (hw : w.graph.Wf) {a : ArcId}
    (ha : w.graph.arcs.size ≤ a) (hlt : a < w'.graph.arcs.size) :
    w.graph.isActive (w'.graph.arc a).parent = true ∧
      w.graph.layerOf (w'.graph.arc a).parent = layer ∧
      w.domains.contains (p.model.var layer) (w'.graph.arc a).value = true ∧
      w.accepts p layer ((w'.graph.arc a).parent, (w'.graph.arc a).value) = .ok true := by
  obtain ⟨i, d, hd, hb, -⟩ := h.branch_of_arc ha hlt
  obtain ⟨hq, hv, hacc⟩ := mem_acceptedBranches.1 (h.branch_of_draft hd hb)
  obtain ⟨hon, hlay⟩ := hw.mem_layer.1 hq
  exact ⟨hon, hlay, hv, hacc⟩

/-- The nodes are those from before and one for each draft. -/
theorem node_cases (h : Layered p width layer w w' ds) {n : NodeId}
    (hn : n < w'.graph.nodes.size) :
    n < w.graph.nodes.size ∨ ∃ (i : Nat) (d : Draft), ds[i]? = some d ∧ n = w.graph.nodes.size + i := by
  rcases Nat.lt_or_ge n w.graph.nodes.size with hlt | hge
  · exact Or.inl hlt
  · obtain ⟨i, rfl⟩ := Nat.exists_eq_add_of_le hge
    rw [h.laid.nodes] at hn
    have hi : i < ds.length := Nat.lt_of_add_lt_add_left hn
    exact Or.inr ⟨i, ds[i], List.getElem?_eq_getElem hi, rfl⟩

theorem low (h : Layered p width layer w w' ds)
    (hw : ∀ n < w.graph.nodes.size, w.graph.layerOf n ≤ layer) :
    ∀ n < w'.graph.nodes.size, w'.graph.layerOf n ≤ layer + 1 := by
  intro n hn
  rcases h.node_cases hn with hlt | ⟨i, d, hd, rfl⟩
  · rw [h.laid.layerOf hlt]
    exact Nat.le_succ_of_le (hw n hlt)
  · exact Nat.le_of_eq (h.laid.newNode i d hd).1

/-- There are no new nodes on the layers from before. -/
theorem old_of_layerOf (h : Layered p width layer w w' ds) {n : NodeId}
    (hn : n < w'.graph.nodes.size) (hl : w'.graph.layerOf n ≠ layer + 1) :
    n < w.graph.nodes.size := by
  refine (h.node_cases hn).resolve_right ?_
  rintro ⟨i, d, hd, rfl⟩
  exact hl (h.laid.newNode i d hd).1

theorem isEmpty_arcsOn (h : Layered p width layer w w' ds) (hw : w.graph.Wf) (hw' : w'.graph.Wf)
    {direction : Direction} {n : NodeId} (hn : (w.arcsOn direction n).isEmpty = false) :
    (w'.arcsOn direction n).isEmpty = false := by
  rw [Bool.eq_false_iff, Ne, Array.isEmpty_iff] at hn ⊢
  obtain ⟨a, ha⟩ := Array.exists_mem_of_ne_empty _ hn
  obtain ⟨on, e⟩ := (mem_arcsOn hw).1 ha
  have hlt := Graph.lt_of_arcIsActive _ on
  have hm : a ∈ w'.arcsOn direction n := by
    refine (mem_arcsOn hw').2 ⟨h.laid.evolves.arcActive_of a on, ?_⟩
    unfold endOn at e ⊢
    rw [h.laid.oldArc a hlt]
    exact e
  intro e'
  rw [e'] at hm
  exact Array.not_mem_empty a hm

/-- Only parents may be without arcs. -/
theorem fed (h : Layered p width layer w w' ds) (hw : w.graph.Wf) (hw' : w'.graph.Wf)
    (hf : Fed layer nobody ([], w)) :
    Fed (layer + 1) (fun e n => e = .up ∧ n ∈ w.graph.layer layer) ([], w') := by
  have old : ∀ {direction n}, w.graph.isActive n = true → Inner layer w direction n →
      (w'.arcsOn direction n).isEmpty = false := by
    intro direction n hn hi
    rcases hf direction n hn hi with h' | h' | h'
    · exact h.isEmpty_arcsOn hw hw' h'
    · cases h'
    · cases h'
  intro direction n hn hi
  rcases h.node_cases (Graph.lt_of_isActive _ hn) with hlt | ⟨i, d, hd, rfl⟩
  · rw [h.laid.isActive hlt] at hn
    have hlay := h.laid.layerOf hlt
    cases direction with
    | up =>
      have hle : w.graph.layerOf n ≤ layer :=
        Nat.le_of_lt_succ (Nat.lt_of_le_of_lt (Nat.le_of_eq hlay.symm) hi)
      rcases Nat.lt_or_eq_of_le hle with hlt' | heq
      · exact Or.inl (old hn hlt')
      · exact Or.inr (Or.inr ⟨rfl, hw.mem_layer.2 ⟨hn, heq⟩⟩)
    | down => exact Or.inl (old hn (Nat.lt_of_lt_of_eq hi hlay))
  · cases direction with
    | up => exact absurd ((h.laid.newNode i d hd).1 ▸ hi) (Nat.lt_irrefl _)
    | down =>
      obtain ⟨b, hb⟩ := List.exists_mem_of_ne_nil _
        (h.drafted.reaches d (List.mem_of_getElem? hd)).ne_nil
      obtain ⟨a, -, on, -, -, hc⟩ := h.arc_of_draft hd (Array.mem_toList_iff.1 hb)
      refine Or.inl ?_
      rw [Bool.eq_false_iff, Ne, Array.isEmpty_iff]
      intro e
      have hm : a ∈ w'.arcsOn .down (w.graph.nodes.size + i) := hw'.mem_incoming.2 ⟨on, hc⟩
      rw [e] at hm
      exact Array.not_mem_empty a hm

theorem reached (h : Layered p width layer w w' ds)
    (hr : Reached ([], w)) : Reached ([], w') := by
  intro a ha
  rcases Nat.lt_or_ge a w.graph.arcs.size with hlt | hge
  · have hon := h.laid.evolves.arcActive a hlt ha
    refine (hr a hon).imp (fun hn => ?_) nofun
    show w'.graph.isActive (w'.graph.arc a).child = true
    rw [h.laid.oldArc a hlt]
    exact h.laid.evolves.active_of _ hn
  · obtain ⟨i, d, hd, -, hc⟩ := h.branch_of_arc hge (Graph.lt_of_arcIsActive _ ha)
    refine Or.inl ?_
    show w'.graph.isActive (w'.graph.arc a).child = true
    rw [hc]
    exact (h.laid.newNode i d hd).2.1

end Layered

namespace Trail

/-- The trail goes on along an arc from layer `l` to a node. -/
def extend (t : Trail) (l : Nat) (a : ArcId) (n : NodeId) : Trail where
  node k := if k = l + 1 then n else t.node k
  arc k := if k = l then a else t.arc k

variable (t : Trail) {l k : Nat} (a : ArcId) (n : NodeId)

@[simp] theorem node_extend_self : (t.extend l a n).node (l + 1) = n := if_pos rfl

theorem node_extend_of_le (h : k ≤ l) : (t.extend l a n).node k = t.node k :=
  if_neg (Nat.ne_of_lt (Nat.lt_succ_of_le h))

@[simp] theorem arc_extend_self : (t.extend l a n).arc l = a := if_pos rfl

theorem arc_extend_of_lt (h : k < l) : (t.extend l a n).arc k = t.arc k := if_neg (Nat.ne_of_lt h)

end Trail

/-- A trail goes on to the new layer along an accepted branch. -/
theorem Guided.grow {p : Plan} {σ : Nat → Int} {layer : Nat} {t : Trail} {width : Option Nat}
    {w w' : Workspace} {ds : List Draft} (h : Guided p σ layer t ([], w))
    (hl : Layered p width layer w w' ds) {i : Nat} {d : Draft} (hd : ds[i]? = some d)
    {a : ArcId} (on : w'.graph.arcIsActive a = true)
    (parent : (w'.graph.arc a).parent = t.node layer) (value : (w'.graph.arc a).value = σ layer)
    (child : (w'.graph.arc a).child = w.graph.nodes.size + i) :
    Guided p σ (layer + 1) (t.extend layer a (w.graph.nodes.size + i)) ([], w') := by
  have hnew := hl.laid.newNode i d hd
  have old : ∀ l ≤ layer, t.node l < w.graph.nodes.size :=
    fun l hl => Graph.lt_of_isActive _ (h.node l hl).1
  refine ⟨fun l hl' => ?_, fun l hl' => ?_, ?_, hl.low h.low, fun n hn hn' => ?_,
    fun n hn hn' => ?_, nofun⟩
  · rcases Nat.lt_or_eq_of_le hl' with hlt | rfl
    · have hle := Nat.le_of_lt_succ hlt
      rw [t.node_extend_of_le _ _ hle, hl.laid.isActive (old l hle), hl.laid.layerOf (old l hle)]
      exact h.node l hle
    · rw [t.node_extend_self]
      exact ⟨hnew.2.1, hnew.1⟩
  · rcases Nat.lt_or_eq_of_le (Nat.le_of_lt_succ hl') with hlt | rfl
    · obtain ⟨hon, hpar, hch, hv⟩ := h.arc l hlt
      have hlt' := Graph.lt_of_arcIsActive _ hon
      rw [t.arc_extend_of_lt _ _ hlt, t.node_extend_of_le _ _ (Nat.le_of_lt hlt),
        t.node_extend_of_le _ _ hlt, hl.laid.oldArc _ hlt']
      exact ⟨hl.laid.evolves.arcActive_of _ hon, hpar, hch, hv⟩
    · rw [t.arc_extend_self, t.node_extend_of_le _ _ (Nat.le_refl _), t.node_extend_self]
      exact ⟨on, parent, child, value⟩
  · show ∀ l < p.model.depth, w'.domains.contains (p.model.var l) (σ l) = true
    rw [hl.laid.domains]
    exact h.within
  · have hlt := hl.old_of_layerOf (Graph.lt_of_isActive _ hn) (by rw [hn']; exact (Nat.succ_ne_zero _).symm)
    rw [t.node_extend_of_le _ _ (Nat.zero_le _)]
    exact h.root n (by rwa [hl.laid.isActive hlt] at hn) (by rwa [hl.laid.layerOf hlt] at hn')
  · rcases hl.node_cases (Graph.lt_of_isActive _ hn) with hlt | ⟨j, e, he, rfl⟩
    · rw [hl.laid.layerOf hlt] at hn'
      rw [hl.laid.isActive hlt] at hn
      rw [t.node_extend_of_le _ _ (hn' ▸ h.low n hlt)]
      exact h.sink n hn hn'
    · -- the last layer has one draft
      have hdepth : layer + 1 = p.model.depth := (hl.laid.newNode j e he).1.symm.trans hn'
      have hlen := hl.sink hdepth
      have hi := (List.getElem?_eq_some_iff.1 hd).1
      have hj := (List.getElem?_eq_some_iff.1 he).1
      rw [← hdepth, t.node_extend_self]
      have : j = i := by omega
      rw [this]

end DecisionDiagrams
