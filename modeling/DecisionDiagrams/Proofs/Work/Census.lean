import DecisionDiagrams.Proofs.Graph.Wellformed
import DecisionDiagrams.Proofs.Work.Outcome

/-! The census of a workspace: its graph agrees with itself, and the number kept for a value of a
layer is the number of arcs which carry the value there. Every edit of the graph keeps the census,
because an arc enters and leaves the graph together with one support of its value. -/

namespace DecisionDiagrams

namespace Supports

variable (v u : Int) (n : Nat) (s : Supports)

theorem count_put : count u (put v n s) = if u = v then n else count u s := by
  have same : compare v u = .eq ↔ u = v := Std.LawfulEqCmp.compare_eq_iff_eq.trans eq_comm
  unfold put count
  split_ifs <;> simp_all [Std.ExtTreeMap.getD_insert, Std.ExtTreeMap.getD_erase]

theorem count_increment : count u (increment v s) = if u = v then count u s + 1 else count u s := by
  rw [increment, count_put]
  split_ifs with e
  · rw [e]
  · rfl

theorem count_decrement : count u (decrement v s) = if u = v then count u s - 1 else count u s := by
  rw [decrement, count_put]
  split_ifs with e
  · rw [e]
  · rfl

end Supports

theorem countP_and_ne {l : List Nat} (hn : l.Nodup) {a : Nat} (ha : a ∈ l) {f : Nat → Bool}
    (hf : f a = true) : l.countP (fun b => f b && b != a) + 1 = l.countP f := by
  have hm : a ∈ l.filter f := List.mem_filter.2 ⟨ha, hf⟩
  have e : (l.filter f).erase a = l.filter fun b => f b && b != a := by
    rw [List.Nodup.erase_eq_filter (hn.filter f), List.filter_filter]
    exact List.filter_congr fun b _ => Bool.and_comm _ _
  have hl := List.length_erase_of_mem hm
  have hpos := List.length_pos_of_mem hm
  rw [List.countP_eq_length_filter, List.countP_eq_length_filter, ← e, hl]
  omega

namespace Graph

variable {g : Graph}

/-- Whether an arc is there, on the given layer and with the given label. -/
def carries (g : Graph) (l : Nat) (v : Int) (a : ArcId) : Bool :=
  g.arcIsActive a && g.layerOf (g.arc a).parent == l && (g.arc a).value == v

/-- The number of arcs of a layer with the given label. -/
def labelled (g : Graph) (l : Nat) (v : Int) : Nat :=
  (List.range g.arcs.size).countP (g.carries l v)

theorem carries_iff {l : Nat} {v : Int} {a : ArcId} :
    g.carries l v a = true ↔
      g.arcIsActive a = true ∧ g.layerOf (g.arc a).parent = l ∧ (g.arc a).value = v := by
  simp [carries, and_assoc]

theorem labelled_pos_iff {l : Nat} {v : Int} :
    0 < g.labelled l v ↔
      ∃ a, g.arcIsActive a = true ∧ g.layerOf (g.arc a).parent = l ∧ (g.arc a).value = v := by
  unfold labelled
  rw [List.countP_pos_iff]
  constructor
  · rintro ⟨a, -, ha⟩
    exact ⟨a, carries_iff.1 ha⟩
  · rintro ⟨a, ha⟩
    exact ⟨a, List.mem_range.2 (lt_of_arcIsActive g ha.1), carries_iff.2 ha⟩

theorem labelled_congr {g' : Graph} (hs : g'.arcs = g.arcs)
    (hl : ∀ n, g'.layerOf n = g.layerOf n) (l : Nat) (v : Int) :
    g'.labelled l v = g.labelled l v := by
  unfold labelled
  rw [hs]
  refine List.countP_congr fun a _ => ?_
  simp only [carries, arcIsActive, arc, hs, hl]

theorem labelled_appendNode (h : Wf g) (k : Nat) (s : BySide State) (l : Nat) (v : Int) :
    (g.appendNode k s).2.labelled l v = g.labelled l v := by
  unfold labelled
  rw [arcs_appendNode]
  refine List.countP_congr fun a _ => ?_
  simp only [carries_iff, arcIsActive, arc_appendNode]
  refine and_congr_right fun ha => ?_
  rw [layerOf, node_appendNode_of_ne g k s (Nat.ne_of_lt (h.parent_lt ha))]
  rfl

theorem labelled_connect {p c : NodeId} (hp : p < g.nodes.size) (hc : c < g.nodes.size)
    (u : Int) (l : Nat) (v : Int) :
    (g.connect p c u).labelled l v =
      if l = g.layerOf p ∧ v = u then g.labelled l v + 1 else g.labelled l v := by
  have hlay : ∀ n, (g.connect p c u).layerOf n = g.layerOf n := by
    intro n
    rw [layerOf, node_connect g p c u hp hc]
    rfl
  have hold : (List.range g.arcs.size).countP ((g.connect p c u).carries l v) = g.labelled l v := by
    refine List.countP_congr fun a ha => ?_
    have hne : a ≠ g.arcs.size := Nat.ne_of_lt (List.mem_range.1 ha)
    simp only [carries, arcIsActive, arc_connect_of_ne g p c u hne, hlay]
  have hnew : (g.connect p c u).carries l v g.arcs.size = decide (l = g.layerOf p ∧ v = u) := by
    rw [Bool.eq_iff_iff, carries_iff]
    simp only [arcIsActive, arc_connect_self, hlay, decide_eq_true_eq, true_and]
    constructor <;> rintro ⟨rfl, rfl⟩ <;> exact ⟨rfl, rfl⟩
  show (List.range (g.connect p c u).arcs.size).countP ((g.connect p c u).carries l v) = _
  rw [arcs_size_connect, List.range_succ, List.countP_append, hold, List.countP_singleton, hnew]
  by_cases e : l = g.layerOf p ∧ v = u <;> simp [e]

theorem labelled_detach (h : Wf g) {a : ArcId} (ha : g.arcIsActive a = true) (l : Nat) (v : Int) :
    (g.detach a).labelled l v =
      if l = g.layerOf (g.arc a).parent ∧ v = (g.arc a).value then g.labelled l v - 1
      else g.labelled l v := by
  have hl := h.listed a
  have hc : ∀ b, (g.detach a).carries l v b = (g.carries l v b && b != a) := by
    intro b
    rw [Bool.eq_iff_iff, Bool.and_eq_true, carries_iff, carries_iff, arcIsActive_detach hl,
      layerOf_detach hl, parent_detach hl, value_detach hl, bne_iff_ne]
    tauto
  unfold labelled
  rw [arcs_size_detach, List.countP_congr fun b _ => by rw [hc b]]
  split_ifs with e
  · have := countP_and_ne (f := g.carries l v) List.nodup_range
      (List.mem_range.2 (lt_of_arcIsActive g ha)) (carries_iff.2 ⟨ha, e.1.symm, e.2.symm⟩)
    exact Nat.eq_sub_of_add_eq this
  · refine List.countP_congr fun b _ => ?_
    rw [Bool.and_eq_true, bne_iff_ne, and_iff_left_iff_imp]
    rintro hb rfl
    exact e ⟨(carries_iff.1 hb).2.1.symm, (carries_iff.1 hb).2.2.symm⟩

theorem labelled_withdraw (h : Wf g) (n : NodeId) (l : Nat) (v : Int) :
    (g.withdraw n).labelled l v = g.labelled l v := by
  refine labelled_congr arcs_withdraw (fun m => ?_) l v
  rw [layerOf, node_withdraw fun m hm => h.lt_of_mem_layer hm]
  rfl

theorem labelled_putState {n : NodeId} (hn : n < g.nodes.size) (side : Side) (s : State) (l : Nat)
    (v : Int) : (g.putState n side s).labelled l v = g.labelled l v := by
  refine labelled_congr (arcs_putState g n side s) (fun m => ?_) l v
  rw [layerOf, node_putState g n side s hn]
  rfl

end Graph

namespace Workspace

variable (n : NodeId) {w : Workspace}

@[simp] theorem graph_retire : (w.retire n).graph = w.graph.withdraw n := by unfold retire; rfl

@[simp] theorem supports_retire : (w.retire n).supports = w.supports := by unfold retire; rfl

@[simp] theorem domains_retire : (w.retire n).domains = w.domains := by unfold retire; rfl

end Workspace

structure Census (p : Plan) (w : Workspace) : Prop where
  wf : w.graph.Wf
  layers : w.graph.layers.size = p.model.depth + 1
  tracked : w.supports.size = p.model.depth
  supports : ∀ l v, w.support l v = w.graph.labelled l v

namespace Census

variable {p : Plan} {w : Workspace}

/-- Only the graph and the supports are counted. -/
theorem congr {w' : Workspace} (h : Census p w) (hg : w'.graph = w.graph)
    (hs : w'.supports = w.supports) : Census p w' := by
  refine ⟨?_, ?_, ?_, ?_⟩
  · rw [hg]; exact h.wf
  · rw [hg]; exact h.layers
  · rw [hs]; exact h.tracked
  · intro l v
    rw [hg, ← h.supports l v, Workspace.support, hs]
    rfl

theorem parent_lt_depth (h : Census p w) {a : ArcId} (ha : w.graph.arcIsActive a = true) :
    w.graph.layerOf (w.graph.arc a).parent < p.model.depth := by
  have h1 := h.wf.adjacent a ha
  have h2 := h.wf.layer_lt _ (h.wf.child_lt ha)
  rw [h.layers] at h2
  omega

theorem layerOf_le_of_lt (h : Census p w) {n : NodeId} (hn : n < w.graph.nodes.size) :
    w.graph.layerOf n ≤ p.model.depth := by
  have := h.wf.layer_lt n hn
  rw [h.layers] at this
  omega

theorem layerOf_le (h : Census p w) {n : NodeId} (hn : w.graph.isActive n = true) :
    w.graph.layerOf n ≤ p.model.depth := h.layerOf_le_of_lt (Graph.lt_of_isActive _ hn)

theorem support_modify (l k : Nat) (f : Supports → Supports) (v : Int) (hl : l < w.supports.size) :
    ((w.supports.modify l f).getD k ∅).count v =
      if k = l then (f (w.supports.getD k ∅)).count v else w.support k v := by
  have := getD_modify w.supports f l k (Or.inl hl)
  rw [show (default : Supports) = ∅ from rfl] at this
  rw [this]
  split_ifs <;> rfl

theorem addNode (h : Census p w) {l : Nat} (hl : l ≤ p.model.depth) (s : BySide State) :
    Census p (w.addNode l s).2 := by
  refine ⟨h.wf.appendNode (by rw [h.layers]; omega) s, ?_, h.tracked, fun k v => ?_⟩
  · exact (Graph.layers_size_appendNode _ _ _).trans h.layers
  · exact (h.supports k v).trans (Graph.labelled_appendNode h.wf l s k v).symm

theorem connect (h : Census p w) {n c : NodeId} (hn : n < w.graph.nodes.size)
    (hc : c < w.graph.nodes.size) (hl : w.graph.layerOf c = w.graph.layerOf n + 1) (v : Int) :
    Census p (w.connect n c v) := by
  have hlt : w.graph.layerOf n < w.supports.size := by
    have := h.wf.layer_lt c hc
    rw [h.layers] at this
    rw [h.tracked]
    omega
  refine ⟨h.wf.connect hn hc hl v, h.layers, ?_, fun k u => ?_⟩
  · exact (Array.size_modify).trans h.tracked
  · show ((w.supports.modify _ _).getD k ∅).count u = _
    rw [support_modify _ _ _ _ hlt, Supports.count_increment]
    show _ = (w.graph.connect n c v).labelled k u
    rw [Graph.labelled_connect hn hc, ← h.supports]
    unfold Workspace.support
    split_ifs <;> tauto

theorem unhook (h : Census p w) {a : ArcId} (ha : w.graph.arcIsActive a = true) :
    Census p (w.unhook a) := by
  have hlt : w.graph.layerOf (w.graph.arc a).parent < w.supports.size := by
    rw [h.tracked]
    exact h.parent_lt_depth ha
  refine ⟨h.wf.detach ha, ?_, ?_, fun k u => ?_⟩
  · exact (congrArg Array.size Graph.layers_detach).trans h.layers
  · exact (Array.size_modify).trans h.tracked
  · show ((w.supports.modify _ _).getD k ∅).count u = _
    rw [support_modify _ _ _ _ hlt, Supports.count_decrement]
    show _ = (w.graph.detach a).labelled k u
    rw [Graph.labelled_detach h.wf ha, ← h.supports]
    unfold Workspace.support
    split_ifs <;> tauto

theorem retire (h : Census p w) {n : NodeId} (hn : w.graph.isActive n = true) :
    Census p (w.retire n) := by
  refine ⟨?_, ?_, ?_, fun l v => ?_⟩
  · rw [Workspace.graph_retire]
    exact h.wf.withdraw hn
  · rw [Workspace.graph_retire, Graph.layers_size_withdraw]
    exact h.layers
  · rw [Workspace.supports_retire]
    exact h.tracked
  · unfold Workspace.support
    rw [Workspace.graph_retire, Graph.labelled_withdraw h.wf, Workspace.supports_retire]
    exact h.supports l v

theorem putState (h : Census p w) {n : NodeId} (hn : n < w.graph.nodes.size) (side : Side)
    (s : State) : Census p (w.putState n side s) :=
  ⟨h.wf.putState hn side s, h.layers, h.tracked,
    fun k v => (h.supports k v).trans (Graph.labelled_putState hn side s k v).symm⟩

theorem schedule (h : Census p w) (direction : Direction) (r : Demand) (n : NodeId) :
    Census p (w.schedule p direction r n) := by
  unfold Workspace.schedule
  dsimp only
  split_ifs
  · exact h.congr rfl rfl
  · exact h

end Census
end DecisionDiagrams
