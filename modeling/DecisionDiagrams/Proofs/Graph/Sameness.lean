import DecisionDiagrams.Graph.Dot
import DecisionDiagrams.Proofs.Engine.PathCount
import DecisionDiagrams.Proofs.Graph.Arena

/-! Graphs with the same active nodes and arcs. Everything which is shown of a graph is read off these, so free
slots behind a stored graph are not seen. -/

namespace DecisionDiagrams

namespace Graph

variable {g g' : Graph}

/-- The layers list the same nodes, and what is active is the same down to the places in all lists. -/
structure Agrees (g g' : Graph) : Prop where
  layers : g.layers = g'.layers
  isActive : ∀ n, g.isActive n = g'.isActive n
  node : ∀ n, g.isActive n = true → g.node n = g'.node n
  arcIsActive : ∀ a, g.arcIsActive a = g'.arcIsActive a
  arc : ∀ a, g.arcIsActive a = true → g.arc a = g'.arc a

namespace Agrees

theorem symm (h : g.Agrees g') : g'.Agrees g where
  layers := h.layers.symm
  isActive n := (h.isActive n).symm
  node n hn := (h.node n ((h.isActive n).trans hn)).symm
  arcIsActive a := (h.arcIsActive a).symm
  arc a ha := (h.arc a ((h.arcIsActive a).trans ha)).symm

theorem trans {g'' : Graph} (h : g.Agrees g') (k : g'.Agrees g'') : g.Agrees g'' where
  layers := h.layers.trans k.layers
  isActive n := (h.isActive n).trans (k.isActive n)
  node n hn := (h.node n hn).trans (k.node n ((h.isActive n).symm.trans hn))
  arcIsActive a := (h.arcIsActive a).trans (k.arcIsActive a)
  arc a ha := (h.arc a ha).trans (k.arc a ((h.arcIsActive a).symm.trans ha))

section

variable (h : g.Agrees g') (w : g.Wf)
include h

theorem layer (l : Nat) : g.layer l = g'.layer l := by unfold Graph.layer; rw [h.layers]

theorem layerCount : g.layerCount = g'.layerCount := congrArg Array.size h.layers

theorem liveNodes : g.liveNodes = g'.liveNodes := by unfold Graph.liveNodes; rw [h.layers]

include w

theorem live {ns : Array NodeId} (hns : ns ∈ g.layers.toList) {n : NodeId} (hn : n ∈ ns.toList) :
    g.node n = g'.node n := by
  obtain ⟨l, hl, rfl⟩ := List.mem_iff_getElem.1 hns
  have here : g.layer l = g.layers.toList[l] := by
    rw [Graph.layer, Array.getD_eq_getD_getElem?, ← Array.getElem?_toList, List.getElem?_eq_getElem hl,
      Option.getD_some]
  rw [← here, Array.mem_toList_iff, w.mem_layer] at hn
  exact h.node n hn.1

theorem ofLayer {l : Nat} {n : NodeId} (hn : n ∈ g.layer l) : g.node n = g'.node n :=
  h.node n (w.mem_layer.1 hn).1

theorem outgoing {n : NodeId} {a : ArcId} (ha : a ∈ (g.outgoing n).toList) : g.arc a = g'.arc a :=
  h.arc a (w.mem_outgoing.1 (Array.mem_toList_iff.1 ha)).1

/-- By induction on the length of the paths. -/
theorem routes : ∀ (l : Nat) (c : NodeId), g.routes l c = g'.routes l c
  | 0, c => by
    unfold Graph.routes
    rw [h.layer]
  | l + 1, c => by
    unfold Graph.routes
    rw [← h.layer]
    refine List.flatMap_congr fun n hn => ?_
    have here := h.ofLayer w (Array.mem_toList_iff.1 hn)
    have arcs : g'.outgoing n = g.outgoing n := by unfold Graph.outgoing; rw [here]
    have kept : (g.outgoing n).toList.filter (fun a => (g.arc a).child == c) =
        (g'.outgoing n).toList.filter fun a => (g'.arc a).child == c := by
      rw [arcs]
      exact List.filter_congr fun a ha => by rw [h.outgoing w ha]
    rw [kept, routes l n]

theorem numPaths (w' : g'.Wf) (nonempty : 0 < g.layerCount) : g.numPaths = g'.numPaths := by
  have full : g.fullRoutes (g.layerCount - 1) = g'.fullRoutes (g'.layerCount - 1) := by
    unfold fullRoutes
    rw [← h.layerCount, ← h.layer]
    exact List.flatMap_congr fun n _ => h.routes w _ n
  rw [numPaths_eq w nonempty, numPaths_eq w' (h.layerCount ▸ nonempty), full]

theorem shape (w' : g'.Wf) (nonempty : 0 < g.layerCount) : g.shape = g'.shape := by
  have live : ∀ n ∈ g.liveNodes, g.node n = g'.node n := fun n hn => by
    obtain ⟨ns, hns, hn⟩ := List.mem_flatMap.1 hn
    exact h.live w hns hn
  have arcs : (g.liveNodes.map fun n => (g.outgoing n).size) = g.liveNodes.map fun n => (g'.outgoing n).size :=
    List.map_congr_left fun n hn => by unfold Graph.outgoing; rw [live n hn]
  have relaxed : (g.liveNodes.countP fun n => (g.state n .down).relaxed) =
      g.liveNodes.countP fun n => (g'.state n .down).relaxed :=
    List.countP_congr fun n hn => by unfold Graph.state; rw [live n hn]
  have ins : ((g.layers.toList.drop 1).flatMap fun l => l.toList.map fun n => (g.incoming n).size) =
      (g.layers.toList.drop 1).flatMap fun l => l.toList.map fun n => (g'.incoming n).size :=
    List.flatMap_congr fun ns hns => List.map_congr_left fun n hn => by
      unfold Graph.incoming
      rw [h.live w (List.mem_of_mem_drop hns) hn]
  have outs : ((g.layers.toList.take (g.layerCount - 1)).flatMap fun l => l.toList.map fun n =>
      (g.outgoing n).size) = (g.layers.toList.take (g.layerCount - 1)).flatMap fun l => l.toList.map fun n =>
      (g'.outgoing n).size :=
    List.flatMap_congr fun ns hns => List.map_congr_left fun n hn => by
      unfold Graph.outgoing
      rw [h.live w (List.mem_of_mem_take hns) hn]
  unfold Graph.shape
  dsimp only
  rw [arcs, relaxed, ins, outs, h.numPaths w w' nonempty, h.liveNodes, h.layerCount, h.layers]

theorem dot : g.dot = g'.dot := by
  have nodes : ∀ l, g.dotLayer l = g'.dotLayer l := fun l => by
    unfold dotLayer
    rw [← h.layer, List.map_congr_left fun n hn => ?_]
    unfold dotNode Graph.state
    rw [h.ofLayer w (Array.mem_toList_iff.1 hn)]
  have arcs : ∀ l, (g.layer l).toList.map g.dotArcs = (g'.layer l).toList.map g'.dotArcs := fun l => by
    rw [← h.layer]
    refine List.map_congr_left fun n hn => ?_
    have here := h.ofLayer w (Array.mem_toList_iff.1 hn)
    have same : g'.outgoing n = g.outgoing n := by unfold Graph.outgoing; rw [here]
    unfold dotArcs
    rw [same, List.map_congr_left fun a ha => ?_]
    rw [h.outgoing w ha]
  unfold Graph.dot
  dsimp only
  rw [← h.layerCount, funext nodes, funext fun l => congrArg String.join (arcs l)]

end
end Agrees

/-- Nothing of a graph is in the free slots behind it. -/
theorem Spares.agrees {ns : List Node} {es : List Arc} (h : g.Spares ns es) : (g.padded ns es).Agrees g where
  layers := rfl
  isActive := h.isActive_padded
  node n hn := node_padded (lt_of_isActive g ((h.isActive_padded n).symm.trans hn))
  arcIsActive := h.arcIsActive_padded
  arc a ha := arc_padded (lt_of_arcIsActive g ((h.arcIsActive_padded a).symm.trans ha))

end Graph

namespace Arena.Shows

variable {a : Arena} {g : Graph}

theorem agrees (hs : a.Shows g) : a.graph.Agrees g := by
  obtain ⟨ns, es, j, spares, rfl⟩ := hs
  exact spares.agrees

theorem inUse (hs : a.Shows g) : a.inUse = g := by
  obtain ⟨ns, es, j, -, rfl⟩ := hs
  have taken : ∀ {α : Type} (xs : Array α) (rest : List α),
      (xs ++ rest.toArray).take ((xs ++ rest.toArray).size - rest.length) = xs := fun xs rest => by
    refine Array.toList_inj.1 ?_
    simp
  simp only [Arena.inUse, Graph.stored, Graph.padded, List.length_range', taken]

end Arena.Shows
end DecisionDiagrams
