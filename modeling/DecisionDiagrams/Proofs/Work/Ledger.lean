import DecisionDiagrams.Graph.Shape
import DecisionDiagrams.Proofs.Work.Edits
import Mathlib.Algebra.Ring.Nat

/-! The books of a propagation. Nodes enter and leave the layers and values leave the domains one at a time,
and each of these changes is counted where it is made. `Ledger` says what the counts of two workspaces on the
way of a propagation have to do with their layers and domains, and every edit keeps it. -/

namespace DecisionDiagrams

open Work Cascade

/-! ### The nodes of the layers -/

/-- One entry of a list of numbers which are added up is replaced. -/
theorem List.sum_map_modify {α : Type} {l : List α} {i : Nat} {x : α} (hi : l[i]? = some x) (f : α → α)
    (size : α → Nat) : ((l.modify i f).map size).sum + size x = (l.map size).sum + size (f x) := by
  obtain ⟨hlt, rfl⟩ := List.getElem?_eq_some_iff.1 hi
  have split : l = l.take i ++ l[i] :: l.drop (i + 1) := by
    rw [← List.drop_eq_getElem_cons hlt, List.take_append_drop]
  have whole : (l.map size).sum = ((l.take i ++ l[i] :: l.drop (i + 1)).map size).sum := by rw [← split]
  rw [List.modify_eq_take_cons_drop hlt, whole]
  simp only [List.map_append, List.map_cons, List.sum_append, List.sum_cons]
  omega

namespace Graph

variable {g g' : Graph}

theorem length_liveNodes (g : Graph) : g.liveNodes.length = (g.layers.toList.map (·.size)).sum := by
  simp [liveNodes, List.length_flatMap]

theorem length_liveNodes_congr (h : g'.layers = g.layers) : g'.liveNodes.length = g.liveNodes.length := by
  rw [length_liveNodes, length_liveNodes, h]

theorem length_liveNodes_appendNode {l : Nat} (hl : l < g.layers.size) (states : BySide State) :
    (g.appendNode l states).2.liveNodes.length = g.liveNodes.length + 1 := by
  have hi : g.layers.toList[l]? = some g.layers[l] := by simp [hl]
  have := List.sum_map_modify hi (·.push g.nodes.size) (·.size)
  rw [Array.size_push] at this
  rw [length_liveNodes, length_liveNodes, show (g.appendNode l states).2.layers =
    g.layers.modify l (·.push g.nodes.size) from rfl, Array.toList_modify]
  omega

theorem length_liveNodes_withdraw (h : Wf g) {n : NodeId} (on : g.isActive n = true) :
    (g.withdraw n).liveNodes.length + 1 = g.liveNodes.length := by
  have hl := h.layer_lt n (lt_of_isActive g on)
  have hi : g.layers.toList[g.layerOf n]? = some (g.layer (g.layerOf n)) := by
    simp [layer, hl]
  obtain ⟨hpos, -⟩ := Array.getElem?_eq_some_iff.1 (h.layer_of_node n on)
  have := List.sum_map_modify hi (dropAt · (g.node n).position) (·.size)
  rw [size_dropAt hpos] at this
  rw [length_liveNodes, length_liveNodes, layers_withdraw, Array.toList_modify]
  omega

end Graph

/-! ### The values of the domains -/

/-- How many values the variables of a diagram may take, added up over the variables. -/
def Plan.choices (p : Plan) (s : Domains) : Nat :=
  (p.model.branchVars.toList.map fun x => (s.values x).length).sum

theorem Plan.Distinct.choices_remove? {p : Plan} (hp : p.Distinct) {s t : Domains} {l : Nat} {v : Int}
    {b : Bool} (hl : l < p.model.depth) (h : s.remove? (p.model.var l) v = some (b, t))
    (hv : s.contains (p.model.var l) v = true) : p.choices t + 1 = p.choices s := by
  have hm : p.model.var l ∈ p.model.branchVars.toList := Array.mem_toList_iff.2 (Model.var_mem hl)
  have parts (u : Domains) : p.choices u = (u.values (p.model.var l)).length +
      ((p.model.branchVars.toList.erase (p.model.var l)).map fun x => (u.values x).length).sum :=
    ((List.perm_cons_erase hm).map _).sum_eq
  have others : (p.model.branchVars.toList.erase (p.model.var l)).map (fun x => (t.values x).length) =
      (p.model.branchVars.toList.erase (p.model.var l)).map fun x => (s.values x).length := by
    refine List.map_congr_left fun y hy => ?_
    rw [Domains.values_remove?_of_ne h]
    rintro rfl
    exact hp.not_mem_erase hy
  rw [parts t, parts s, others, ← Domains.length_values_remove? h hv]
  omega

/-! ### The counts -/

/-- What was counted between two workspaces. The nodes of the layers are those from before and the created
ones without the deleted ones; each value which left a domain of the diagram is counted; and nodes are split off
by creating them. -/
structure Ledger (p : Plan) (w w' : Workspace) : Prop where
  nodes : w'.graph.liveNodes.length + w'.counters.nodesDeleted + w.counters.nodesCreated =
    w.graph.liveNodes.length + w.counters.nodesDeleted + w'.counters.nodesCreated
  values : p.choices w'.domains + w'.counters.valuesRemoved =
    p.choices w.domains + w.counters.valuesRemoved
  splits : w'.counters.nodesSplit + w.counters.nodesCreated ≤
    w.counters.nodesSplit + w'.counters.nodesCreated

namespace Ledger

variable {p : Plan} {a b c w w' : Workspace}

theorem refl (p : Plan) (w : Workspace) : Ledger p w w := ⟨rfl, rfl, Nat.le_refl _⟩

theorem trans (h : Ledger p a b) (k : Ledger p b c) : Ledger p a c where
  nodes := by have := h.nodes; have := k.nodes; omega
  values := by have := h.values; have := k.values; omega
  splits := by have := h.splits; have := k.splits; omega

/-- No node and no value comes or goes. -/
theorem steady (hl : w'.graph.layers = w.graph.layers) (hd : w'.domains = w.domains)
    (hm : w.counters.Matches w'.counters) : Ledger p w w' where
  nodes := by rw [Graph.length_liveNodes_congr hl, hm.created, hm.deleted]
  values := by rw [hd, hm.removed]
  splits := by rw [hm.split, hm.created]

theorem addNode (h : Census p w) {l : Nat} (hl : l ≤ p.model.depth) (states : BySide State) :
    Ledger p w (w.addNode l states).2 where
  nodes := by
    have := Graph.length_liveNodes_appendNode (g := w.graph) (l := l) (by rw [h.layers]; omega) states
    show (w.graph.appendNode l states).2.liveNodes.length + w.counters.nodesDeleted + w.counters.nodesCreated =
      w.graph.liveNodes.length + w.counters.nodesDeleted + (w.counters.nodesCreated + 1)
    omega
  values := rfl
  splits := Nat.add_le_add_left (Nat.le_succ _) _

/-- A node which is split off is created. -/
theorem splitNode (h : Census p w) {l : Nat} (hl : l ≤ p.model.depth) (states : BySide State) :
    Ledger p w (w.splitNode l states) :=
  { addNode h hl states with
    splits := by
      show w.counters.nodesSplit + 1 + w.counters.nodesCreated ≤
        w.counters.nodesSplit + (w.counters.nodesCreated + 1)
      omega }

theorem retire (h : Census p w) {n : NodeId} (hn : w.graph.isActive n = true) : Ledger p w (w.retire n) where
  nodes := by
    have := Graph.length_liveNodes_withdraw h.wf hn
    show (w.graph.withdraw n).liveNodes.length + (w.counters.nodesDeleted + 1) + _ = _
    unfold Workspace.retire
    dsimp only
    omega
  values := by unfold Workspace.retire; rfl
  splits := by unfold Workspace.retire; exact Nat.le_refl _

/-- A value leaves the domain of a layer. -/
theorem strike (hp : p.Distinct) {l : Nat} {v : Int} (hl : l < p.model.depth)
    (hv : w.domains.contains (p.model.var l) v = true) : Ledger p w (w.strike (p.model.var l) v) := by
  unfold Workspace.strike
  split
  · exact refl p w
  · rename_i domains left
    refine ⟨rfl, ?_, Nat.le_refl _⟩
    have := hp.choices_remove? hl left hv
    show p.choices domains + (w.counters.valuesRemoved + 1) = _
    omega

theorem edit (hp : p.Distinct) (h : Census p w) {e : Edit} (fits : e.Fits p w) : Ledger p w (e.apply w) := by
  cases e with
  | tally f => exact steady rfl rfl (fits.counted _)
  | memorize => exact steady rfl rfl ⟨rfl, rfl, rfl, rfl, rfl, Nat.le_refl _⟩
  | strike x v =>
    obtain ⟨l, hl, rfl, hv⟩ := fits
    exact strike hp hl hv
  | connect n c v =>
    refine steady rfl ?_ ?_
    · unfold Edit.apply Workspace.connect
      rfl
    · unfold Edit.apply Workspace.connect
      exact .refl _
  | unhook a =>
    refine steady Graph.layers_detach ?_ ?_
    · unfold Edit.apply Workspace.unhook
      rfl
    · unfold Edit.apply Workspace.unhook
      exact ⟨rfl, rfl, rfl, rfl, rfl, Nat.le_refl _⟩
  | retire n => exact retire h fits
  | addNode layer states => exact addNode h fits.1 states
  | split layer states => exact splitNode h fits.1 states
  | note | putState | markBuilt | markUpKnown => exact steady rfl rfl (.refl _)
  | reboot => exact ⟨rfl, rfl, Nat.le_refl _⟩

end Ledger
end DecisionDiagrams
