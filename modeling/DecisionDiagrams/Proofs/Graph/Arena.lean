import DecisionDiagrams.Proofs.Graph.Spares
import DecisionDiagrams.Proofs.Journal
import Mathlib.Data.Option.Basic

/-! The stored graph answers for the graph whose earlier shapes are kept whole. It holds the present shape, with
free slots behind it, and undoing what the journal has leads back through the earlier ones. Each change is undone
where the lists are as it left them, so none of the checks fails. -/

namespace DecisionDiagrams

namespace Graph

variable {g : Graph} {a : ArcId} {n : NodeId} {l : Nat}

theorem getElem?_nodes (hn : n < g.nodes.size) : g.nodes[n]? = some (g.node n) := by
  rw [node, Array.getD_eq_getD_getElem?, Array.getElem?_eq_getElem hn, Option.getD_some]

theorem getElem?_arcs (ha : a < g.arcs.size) : g.arcs[a]? = some (g.arc a) := by
  rw [arc, Array.getD_eq_getD_getElem?, Array.getElem?_eq_getElem ha, Option.getD_some]

theorem getElem?_layers (hl : l < g.layers.size) : g.layers[l]? = some (g.layer l) := by
  rw [layer, Array.getD_eq_getD_getElem?, Array.getElem?_eq_getElem hl, Option.getD_some]

/-- What is written when one graph becomes another. -/
inductive Writes : Graph → GraphChange → Graph → Prop
  | createNode {g : Graph} {l : Nat} (states : BySide State) : l < g.layers.size →
      Writes g (.nodeCreated g.nodes.size) (g.appendNode l states).2
  | addArc {g : Graph} {p c : NodeId} (v : Int) : p < g.nodes.size → c < g.nodes.size →
      g.layerOf c = g.layerOf p + 1 → Writes g (.arcCreated g.arcs.size) (g.connect p c v)
  | removeArc {g : Graph} {a : ArcId} : g.arcIsActive a = true → Writes g (.arcRemoved a) (g.detach a)
  | removeNode {g : Graph} {n : NodeId} : g.isActive n = true → Writes g (.nodeRemoved n) (g.withdraw n)
  | setState {g : Graph} {n : NodeId} {side : Side} {old : State} (s : State) :
      (n < g.nodes.size → old = g.state n side) → Writes g (.stateAssigned n side old) (g.putState n side s)

theorem Writes.wf {g' : Graph} {c : GraphChange} (h : Writes g c g') (w : g.Wf) : g'.Wf := by
  cases h with
  | createNode states hl => exact w.appendNode hl states
  | addArc v hp hc hl => exact w.connect hp hc hl v
  | removeArc ha => exact w.detach ha
  | removeNode hn => exact w.withdraw hn
  | @setState n side old s _ =>
    rcases Nat.lt_or_ge n g.nodes.size with hn | hn
    · exact w.putState hn side s
    · rwa [putState_of_ge hn]

/-- The arena which holds a graph, with free slots behind its nodes and its arcs. -/
def stored (g : Graph) (ns : List Node) (es : List Arc) (j : Journal GraphChange) : Arena where
  graph := g.padded ns es
  freeNodes := List.range' g.nodes.size ns.length
  freeArcs := List.range' g.arcs.size es.length
  journal := j

end Graph

namespace Arena

variable {a b : Arena} {g g' : Graph} {c : GraphChange} {e : ArcId} {n : NodeId} {l : Nat}

/-! ### What each operation leads to -/

theorem removeArc_eq (w : a.graph.Wf) (he : a.graph.arcIsActive e = true) :
    a.removeArc e = some { a with graph := a.graph.detach e, journal := a.journal.write (.arcRemoved e) } := by
  have hactive : (a.graph.arc e).active = true := he
  have hout :
      canDrop (a.graph.node (a.graph.arc e).parent).outgoing (a.graph.arc e).outIndex a.graph.arcs.size = true :=
    canDrop_of_forall (Array.getElem?_eq_some_iff.1 (w.out_of_arc e he)).1 (w.listed e).outgoing
  have hin :
      canDrop (a.graph.node (a.graph.arc e).child).incoming (a.graph.arc e).inIndex a.graph.arcs.size = true :=
    canDrop_of_forall (Array.getElem?_eq_some_iff.1 (w.in_of_arc e he)).1 (w.listed e).incoming
  simp [removeArc, Graph.getElem?_arcs (Graph.lt_of_arcIsActive _ he), Graph.getElem?_nodes (w.parent_lt he),
    Graph.getElem?_nodes (w.child_lt he), hactive, hout, hin]

theorem removeNode_eq (w : a.graph.Wf) (hn : a.graph.isActive n = true) :
    a.removeNode n = some { a with graph := a.graph.withdraw n, journal := a.journal.write (.nodeRemoved n) } := by
  have hactive : (a.graph.node n).active = true := hn
  have hlt := Graph.lt_of_isActive _ hn
  have hdrop : canDrop (a.graph.layer (a.graph.node n).layer) (a.graph.node n).position a.graph.nodes.size = true :=
    canDrop_of_forall (Array.getElem?_eq_some_iff.1 (w.layer_of_node n hn)).1 fun m hm => w.lt_of_mem_layer hm
  have hlayer : a.graph.layers[(a.graph.node n).layer]? = some (a.graph.layer (a.graph.node n).layer) :=
    Graph.getElem?_layers (w.layer_lt n hlt)
  simp [removeNode, Graph.getElem?_nodes hlt, hlayer, hactive, hdrop]

/-- An arc which was removed is put back. -/
theorem undo_arcRemoved (w : g.Wf) (he : g.arcIsActive e = true) (ha : a.graph = g.detach e) :
    a.undo (.arcRemoved e) = some { a with graph := g } := by
  have hl := w.listed e
  have hself := w.arc_detach_self he
  have hslot : e < (g.detach e).arcs.size := (Graph.lt_of_arcIsActive g he).trans_eq Graph.arcs_size_detach.symm
  have hout : canInsert ((g.detach e).node (g.arc e).parent).outgoing (g.arc e).outIndex g.arcs.size = true := by
    rw [Graph.node_detach hl, if_pos rfl]
    exact canInsert_dropAt (Array.getElem?_eq_some_iff.1 (w.out_of_arc e he)).1 hl.outgoing
  have hin : canInsert ((g.detach e).node (g.arc e).child).incoming (g.arc e).inIndex g.arcs.size = true := by
    rw [Graph.node_detach hl, if_pos rfl]
    exact canInsert_dropAt (Array.getElem?_eq_some_iff.1 (w.in_of_arc e he)).1 hl.incoming
  have hp := Graph.getElem?_nodes ((w.parent_lt he).trans_eq (Graph.size_detach (g := g) (a := e)).symm)
  have hc := Graph.getElem?_nodes ((w.child_lt he).trans_eq (Graph.size_detach (g := g) (a := e)).symm)
  simp [undo, ha, Graph.getElem?_arcs hslot, hself, hp, hc, Graph.arcs_size_detach, hout, hin, w.attach_detach he]

/-- A node which was removed is put back. -/
theorem undo_nodeRemoved (w : g.Wf) (hn : g.isActive n = true) (ha : a.graph = g.withdraw n) :
    a.undo (.nodeRemoved n) = some { a with graph := g } := by
  have hlt := Graph.lt_of_isActive g hn
  have hself := w.node_withdraw_self hn
  have hinsert : canInsert ((g.withdraw n).layer (g.node n).layer) (g.node n).position g.nodes.size = true := by
    have hl : (g.withdraw n).layer (g.node n).layer = dropAt (g.layer (g.layerOf n)) (g.node n).position :=
      (Graph.layer_withdraw _).trans (if_pos rfl)
    rw [hl]
    exact canInsert_dropAt (Array.getElem?_eq_some_iff.1 (w.layer_of_node n hn)).1 fun m hm => w.lt_of_mem_layer hm
  have hnode := Graph.getElem?_nodes (hlt.trans_eq (Graph.size_withdraw (g := g) (n := n)).symm)
  have hlayer : (g.withdraw n).layers[(g.node n).layer]? = some ((g.withdraw n).layer (g.node n).layer) :=
    Graph.getElem?_layers ((w.layer_lt n hlt).trans_eq Graph.layers_size_withdraw.symm)
  simp [undo, ha, hnode, hself, hlayer, Graph.size_withdraw, hinsert, w.restore_withdraw hn]

end Arena

namespace Graph

/-! ### Behind the graph are free slots -/

variable {g : Graph} {ns : List Node} {es : List Arc} {j : Journal GraphChange} {e : ArcId} {n : NodeId} {l : Nat}

theorem createNode_stored (hl : l < g.layers.size) (states : BySide State) :
    (g.stored ns es j).createNode l states =
      some (g.nodes.size, (g.appendNode l states).2.stored ns.tail es (j.write (.nodeCreated g.nodes.size))) := by
  have hnodes : (g.padded ns es).nodes = g.nodes ++ ns.toArray := rfl
  simp only [Arena.createNode, stored, layers_padded, getElem?_layers hl, hnodes, occupy_append, size_appendNode,
    Option.bind_eq_bind, Option.bind_some]
  rfl

theorem addArc_stored {p c : NodeId} (hp : p < g.nodes.size) (hc : c < g.nodes.size)
    (hl : g.layerOf c = g.layerOf p + 1) (v : Int) :
    (g.stored ns es j).addArc p c v =
      some (g.arcs.size, (g.connect p c v).stored ns es.tail (j.write (.arcCreated g.arcs.size))) := by
  have harcs : (g.padded ns es).arcs = g.arcs ++ es.toArray := rfl
  have hnodes : (g.padded ns es).nodes = g.nodes ++ ns.toArray := rfl
  have node? : ∀ {n}, n < g.nodes.size → (g.nodes ++ ns.toArray)[n]? = some (g.node n) := fun hn => by
    rw [Array.getElem?_append, if_pos hn, getElem?_nodes hn]
  have hadjacent : (g.node p).layer + 1 = (g.node c).layer := hl.symm
  simp only [Arena.addArc, stored, hnodes, harcs, node? hp, node? hc, occupy_append, size_connect, arcs_size_connect,
    Option.bind_eq_bind, Option.bind_some, hadjacent, guard_true, modify_append_left hp]
  rw [modify_append_left (by simpa using hc)]
  rfl

/-- The slot of a node which was just created becomes the next free one. -/
theorem undo_nodeCreated (hl : l < g.layers.size) (states : BySide State) :
    ((g.appendNode l states).2.stored ns es j).undo (.nodeCreated g.nodes.size) =
      some (g.stored ({ (g.appendNode l states).2.node g.nodes.size with active := false } :: ns) es j) := by
  have hslot : g.nodes.size < (g.appendNode l states).2.nodes.size := by simp
  have hnode : ((g.appendNode l states).2.padded ns es).nodes[g.nodes.size]? =
      some ((g.appendNode l states).2.node g.nodes.size) := by
    rw [getElem?_nodes (by rw [size_padded]; exact hslot.trans_le (Nat.le_add_right _ _)), node_padded hslot]
  have hlayer : (g.appendNode l states).2.layers[l]? = some ((g.layer l).push g.nodes.size) := by
    rw [getElem?_layers (by simpa using hl), layer_appendNode g l states l hl, if_pos rfl]
  simp only [Arena.undo, stored, hnode, node_appendNode_self, layers_padded, hlayer, uncreateNode_appendNode,
    Array.back?_push, size_appendNode, List.length_cons, List.range'_succ, Option.bind_eq_bind, Option.bind_some]
  rfl

/-- The slot of an arc which was just created becomes the next free one. -/
theorem undo_arcCreated {p c : NodeId} (hp : p < g.nodes.size) (hc : c < g.nodes.size) (v : Int) :
    ((g.connect p c v).stored ns es j).undo (.arcCreated g.arcs.size) =
      some (g.stored ns ({ (g.connect p c v).arc g.arcs.size with active := false } :: es) j) := by
  have hslot : g.arcs.size < (g.connect p c v).arcs.size := by simp
  have harc : ((g.connect p c v).padded ns es).arcs[g.arcs.size]? = some ((g.connect p c v).arc g.arcs.size) := by
    rw [getElem?_arcs (by rw [arcs_size_padded]; exact hslot.trans_le (Nat.le_add_right _ _)), arc_padded hslot]
  have hnode : ∀ {n}, n < g.nodes.size →
      ((g.connect p c v).padded ns es).nodes[n]? = some ((g.connect p c v).node n) := fun hn => by
    rw [getElem?_nodes (by rw [size_padded, size_connect]; exact hn.trans_le (Nat.le_add_right _ _)),
      node_padded (by rwa [size_connect])]
  simp only [Arena.undo, stored, harc, arc_connect_self, hnode hp, hnode hc, node_connect g p c v hp hc, if_true,
    uncreateArc_connect hp hc, Array.back?_push, size_connect, arcs_size_connect, List.length_cons, List.range'_succ,
    Option.bind_eq_bind, Option.bind_some]
  rfl

end Graph

namespace Arena

variable {a b : Arena} {h : History Graph} {g g' : Graph} {c : GraphChange} {cs : List GraphChange} {e : ArcId}
  {n p : NodeId} {l : Nat}

/-- The arena holds the graph `g`; behind it there are free slots. -/
def Shows (a : Arena) (g : Graph) : Prop := ∃ ns es j, g.Spares ns es ∧ a = g.stored ns es j

/-- From `a` to `b` a change was written, and `b` holds the changed graph. No slot is given up. -/
structure Wrote (a : Arena) (c : GraphChange) (g : Graph) (b : Arena) : Prop where
  journal : b.journal = a.journal.write c
  shows : b.Shows g
  slots : a.graph.nodes.size ≤ b.graph.nodes.size

namespace Shows

theorem wf (hs : a.Shows g) (w : g.Wf) : a.graph.Wf := by
  obtain ⟨ns, es, j, spares, rfl⟩ := hs
  exact w.padded spares

theorem node (hs : a.Shows g) (hn : n < g.nodes.size) : a.graph.node n = g.node n := by
  obtain ⟨ns, es, j, -, rfl⟩ := hs
  exact Graph.node_padded hn

theorem node_lt (hs : a.Shows g) (hn : n < g.nodes.size) : n < a.graph.nodes.size := by
  obtain ⟨ns, es, j, -, rfl⟩ := hs
  exact hn.trans_le (Graph.size_padded.ge.trans' (Nat.le_add_right _ _))

theorem isActive (hs : a.Shows g) (n : NodeId) : a.graph.isActive n = g.isActive n := by
  obtain ⟨ns, es, j, spares, rfl⟩ := hs
  exact spares.isActive_padded n

theorem arcIsActive (hs : a.Shows g) (e : ArcId) : a.graph.arcIsActive e = g.arcIsActive e := by
  obtain ⟨ns, es, j, spares, rfl⟩ := hs
  exact spares.arcIsActive_padded e

theorem layers (hs : a.Shows g) : a.graph.layers = g.layers := by
  obtain ⟨ns, es, j, -, rfl⟩ := hs
  rfl

theorem lt_of_notMem (hs : a.Shows g) (hn : n < a.graph.nodes.size) (hfree : n ∉ a.freeNodes) :
    n < g.nodes.size := by
  obtain ⟨ns, es, j, -, rfl⟩ := hs
  rw [Graph.stored, Graph.size_padded] at hn
  rw [Graph.stored, List.mem_range'_1] at hfree
  exact lt_of_not_ge fun h => hfree ⟨h, hn⟩

theorem withJournal (hs : a.Shows g) (j : Journal GraphChange) : ({ a with journal := j } : Arena).Shows g := by
  obtain ⟨ns, es, -, spares, rfl⟩ := hs
  exact ⟨ns, es, j, spares, rfl⟩

theorem createNode (hs : a.Shows g) (states : BySide State) (hl : l < g.layers.size) :
    ∃ b, a.createNode l states = some (g.nodes.size, b) ∧
      a.Wrote (.nodeCreated g.nodes.size) (g.appendNode l states).2 b := by
  obtain ⟨ns, es, j, spares, rfl⟩ := hs
  refine ⟨_, Graph.createNode_stored hl states, rfl, ⟨_, _, _, ?_, rfl⟩, ?_⟩
  · exact spares.mono (Graph.layers_size_appendNode g l states) (fun m hm => List.mem_of_mem_tail hm) fun e he => he
  · rw [Graph.stored, Graph.stored, Graph.size_padded, Graph.size_padded, Graph.size_appendNode, List.length_tail]
    omega

theorem addArc (hs : a.Shows g) (hp : p < g.nodes.size) (hn : n < g.nodes.size)
    (hl : g.layerOf n = g.layerOf p + 1) (v : Int) : ∃ b, a.addArc p n v = some (g.arcs.size, b) ∧
      a.Wrote (.arcCreated g.arcs.size) (g.connect p n v) b := by
  obtain ⟨ns, es, j, spares, rfl⟩ := hs
  refine ⟨_, Graph.addArc_stored hp hn hl v, rfl, ⟨_, _, _, ?_, rfl⟩, ?_⟩
  · exact spares.mono rfl (fun m hm => hm) fun e he => List.mem_of_mem_tail he
  · rw [Graph.stored, Graph.stored, Graph.size_padded, Graph.size_padded, Graph.size_connect]

theorem removeArc (hs : a.Shows g) (w : g.Wf) (he : g.arcIsActive e = true) : ∃ b, a.removeArc e = some b ∧
    a.Wrote (.arcRemoved e) (g.detach e) b := by
  refine ⟨_, removeArc_eq (hs.wf w) ((hs.arcIsActive e).trans he), rfl, ?_, Graph.size_detach.ge⟩
  obtain ⟨ns, es, j, spares, rfl⟩ := hs
  refine ⟨ns, es, j.write (.arcRemoved e), spares.of_layers (congrArg Array.size Graph.layers_detach), ?_⟩
  simp only [Graph.stored, w.detach_padded spares he, Graph.size_detach, Graph.arcs_size_detach]

theorem removeNode (hs : a.Shows g) (w : g.Wf) (hn : g.isActive n = true) : ∃ b, a.removeNode n = some b ∧
    a.Wrote (.nodeRemoved n) (g.withdraw n) b := by
  refine ⟨_, removeNode_eq (hs.wf w) ((hs.isActive n).trans hn), rfl, ?_, Graph.size_withdraw.ge⟩
  obtain ⟨ns, es, j, spares, rfl⟩ := hs
  refine ⟨ns, es, j.write (.nodeRemoved n), spares.of_layers Graph.layers_size_withdraw, ?_⟩
  simp only [Graph.stored, w.withdraw_padded spares hn, Graph.size_withdraw, Graph.arcs_withdraw]

/-- Replacing a state, be it the one of a node or one which a free slot still has. -/
theorem putState (hs : a.Shows g) (n : NodeId) (side : Side) (s : State) :
    ({ a with graph := a.graph.putState n side s } : Arena).Shows (g.putState n side s) := by
  obtain ⟨ns, es, j, spares, rfl⟩ := hs
  rcases Nat.lt_or_ge n g.nodes.size with hn | hn
  · refine ⟨ns, es, j, spares.of_layers rfl, ?_⟩
    simp only [Graph.stored, Graph.putState_padded hn, Graph.size_putState, Graph.arcs_putState]
  · have vacant : ∀ m ∈ ns.modify (n - g.nodes.size) fun m => { m with states := m.states.set side s },
        m.Vacant g.layers.size :=
      forall_mem_modify spares.nodes fun m hm => ⟨hm.inactive, hm.outgoing, hm.incoming, hm.layer_lt⟩
    rw [Graph.putState_of_ge hn]
    refine ⟨_, es, j, ⟨vacant, spares.arcs⟩, ?_⟩
    simp only [Graph.stored, Graph.putState_padded_of_ge hn, List.length_modify]

theorem setState (hs : a.Shows g) (side : Side) (s : State) (hn : n < a.graph.nodes.size) : ∃ b, a.setState n side s = some b ∧
    a.Wrote (.stateAssigned n side (a.graph.state n side)) (g.putState n side s) b := by
  refine ⟨_, ?_, rfl, (hs.putState n side s).withJournal _, (Graph.size_putState ..).ge⟩
  simp only [Arena.setState, Graph.getElem?_nodes hn, Option.bind_eq_bind, Option.bind_some]
  rfl

/-! ### Undoing -/

end Shows

/-- The slot of which a state was written is there. -/
def Reaches (a : Arena) : GraphChange → Prop
  | .stateAssigned n _ _ => n < a.graph.nodes.size
  | _ => True

theorem Reaches.mono (hc : a.Reaches c) (h : a.graph.nodes.size ≤ b.graph.nodes.size) : b.Reaches c := by
  cases c with
  | stateAssigned => exact hc.trans_le h
  | _ => trivial

/-- What was written of a change brings back the graph before it. -/
theorem Shows.undo (hs : a.Shows g') (w : g.Wf) (hc : g.Writes c g') (hr : a.Reaches c) :
    ∃ b, a.undo c = some b ∧ b.Shows g ∧ b.journal = a.journal ∧ b.graph.nodes.size = a.graph.nodes.size := by
  cases hc with
  | createNode states hl =>
    obtain ⟨ns, es, j, spares, rfl⟩ := hs
    have spares : g.Spares ns es := spares.of_layers (Graph.layers_size_appendNode ..).symm
    refine ⟨_, Graph.undo_nodeCreated hl states, ⟨_, es, j, ⟨?_, spares.arcs⟩, rfl⟩, rfl, ?_⟩
    · rw [Graph.node_appendNode_self]
      exact List.forall_mem_cons.2 ⟨⟨rfl, rfl, rfl, hl⟩, spares.nodes⟩
    · rw [Graph.stored, Graph.stored, Graph.size_padded, Graph.size_padded, Graph.size_appendNode, List.length_cons]
      omega
  | addArc v hp hc hl =>
    obtain ⟨ns, es, j, spares, rfl⟩ := hs
    refine ⟨_, Graph.undo_arcCreated hp hc v, ⟨ns, _, j, ⟨spares.nodes, ?_⟩, rfl⟩, rfl, ?_⟩
    · exact List.forall_mem_cons.2 ⟨rfl, spares.arcs⟩
    · rw [Graph.stored, Graph.stored, Graph.size_padded, Graph.size_padded, Graph.size_connect]
  | @removeArc e he =>
    obtain ⟨ns, es, j, spares, rfl⟩ := hs
    have spares : g.Spares ns es := spares.of_layers (congrArg Array.size Graph.layers_detach).symm
    refine ⟨_, undo_arcRemoved (w.padded spares) ((spares.arcIsActive_padded e).trans he)
      (w.detach_padded spares he).symm, ⟨ns, es, j, spares, ?_⟩, rfl, ?_⟩
    · simp only [Graph.stored, Graph.size_detach, Graph.arcs_size_detach]
    · simp only [Graph.stored, Graph.size_padded, Graph.size_detach]
  | @removeNode n hn =>
    obtain ⟨ns, es, j, spares, rfl⟩ := hs
    have spares : g.Spares ns es := spares.of_layers Graph.layers_size_withdraw.symm
    refine ⟨_, undo_nodeRemoved (w.padded spares) ((spares.isActive_padded n).trans hn)
      (w.withdraw_padded spares hn).symm, ⟨ns, es, j, spares, ?_⟩, rfl, ?_⟩
    · simp only [Graph.stored, Graph.size_withdraw, Graph.arcs_withdraw]
    · simp only [Graph.stored, Graph.size_padded, Graph.size_withdraw]
  | @setState n side old s hold =>
    refine ⟨{ a with graph := a.graph.putState n side old }, ?_, ?_, rfl, Graph.size_putState ..⟩
    · have hn : n < a.graph.nodes.size := hr
      simp [Arena.undo, hn]
    · have hback : (g.putState n side s).putState n side old = g := by
        rcases Nat.lt_or_ge n g.nodes.size with hn | hn
        · rw [hold hn, Graph.putState_putState]
        · rw [Graph.putState_of_ge hn, Graph.putState_of_ge hn]
      exact hback ▸ hs.putState n side old

/-- `c` is written when the graph `g` is changed, which agrees with itself. -/
def Change (g : Graph) (c : GraphChange) (g' : Graph) : Prop := g.Wf ∧ g.Writes c g'

/-- Undoing what was written, the latest first, leads back to the graph before. -/
theorem Shows.undoAll (hl : Journal.Leads Change cs g' g) (hs : a.Shows g') (hr : ∀ c ∈ cs, a.Reaches c) :
    ∃ b, cs.foldlM Arena.undo a = some b ∧ b.Shows g ∧ b.journal = a.journal ∧
      b.graph.nodes.size = a.graph.nodes.size := by
  induction hl generalizing a with
  | done g => exact ⟨a, rfl, hs, rfl, rfl⟩
  | back hc _ ih =>
    rw [List.forall_mem_cons] at hr
    obtain ⟨b, hb, hsb, hjb, hnb⟩ := hs.undo hc.1 hc.2 hr.1
    obtain ⟨d, hd, hsd, hjd, hnd⟩ := ih hsb fun c hc => (hr.2 c hc).mono hnb.ge
    refine ⟨d, ?_, hsd, hjd.trans hjb, hnd.trans hnb⟩
    rw [List.foldlM_cons, hb]
    exact hd

theorem wf_of_leads (hl : Journal.Leads Change cs g' g) (w : g'.Wf) : g.Wf := by
  induction hl with
  | done => exact w
  | back hc _ ih => exact ih hc.1

/-- The arena holds the present graph of the history, and its journal what was written along the history. -/
structure Mirrors (a : Arena) (h : History Graph) : Prop where
  shows : a.Shows h.current
  wf : h.current.Wf
  logs : a.journal.Logs Change h
  reaches : ∀ c ∈ a.journal.entries.toList, a.Reaches c

theorem mirrors_withLayers (count : Nat) :
    (withLayers count).Mirrors { current := Graph.withLayers count } where
  shows := ⟨[], [], {}, ⟨by simp, by simp⟩, by simp [withLayers, Graph.stored, Graph.padded]⟩
  wf := Graph.wf_withLayers count
  logs := .start _ rfl rfl
  reaches := by simp [withLayers]

namespace Mirrors

theorem wrote (m : a.Mirrors h) (hc : h.current.Writes c g) (hw : a.Wrote c g b) (hr : b.Reaches c) :
    b.Mirrors { h with current := g } where
  shows := hw.shows
  wf := hc.wf m.wf
  logs := hw.journal ▸ m.logs.write ⟨m.wf, hc⟩
  reaches c' hc' := by
    rw [hw.journal, Journal.write, Array.toList_push, List.mem_append, List.mem_singleton] at hc'
    rcases hc' with hc' | rfl
    · exact (m.reaches c' hc').mono hw.slots
    · exact hr

theorem openLevel (m : a.Mirrors h) : Mirrors { a with journal := a.journal.openLevel } h.openCheckpoint where
  shows := m.shows.withJournal _
  wf := m.wf
  logs := m.logs.openLevel
  reaches := m.reaches

theorem align (m : a.Mirrors h) (target : Nat) :
    (a.align target).Mirrors (Nat.repeat History.openCheckpoint (target - h.level) h) := by
  rw [Arena.align, Journal.openTo, m.logs.level]
  induction target - a.journal.level with
  | zero => exact m
  | succ k ih => exact ih.openLevel

/-- Going back undoes what was written above the level. -/
theorem synchronise (m : a.Mirrors h) (target : Nat) :
    ∃ b, a.synchronise target = some b ∧ b.Mirrors (h.backtrack target) := by
  unfold Arena.synchronise
  split_ifs with ht
  · exact ⟨a, rfl, (History.backtrack_of_le (m.logs.level.trans_le ht)).symm ▸ m⟩
  · obtain ⟨logs, leads⟩ := m.logs.cutBack (Nat.lt_of_not_le ht)
    obtain ⟨b, hb, hsb, hjb, hnb⟩ := (m.shows.withJournal (a.journal.cutBack target).2).undoAll leads fun c hc =>
      m.reaches c (Journal.mem_of_mem_cutBack (Or.inl hc))
    refine ⟨b, hb, hsb, wf_of_leads leads m.wf, hjb ▸ logs, fun c hc => ?_⟩
    rw [hjb] at hc
    exact (m.reaches c (Journal.mem_of_mem_cutBack (Or.inr hc))).mono hnb.ge

end Mirrors

/-! ### Requests -/

/-- What may be asked for: layers and nodes which are there, arcs between adjacent layers, and removals of what is
active. -/
def Allows (a : Arena) : GraphRequest → Prop
  | .createNode l _ => l < a.graph.layers.size
  | .addArc p n _ => p < a.graph.nodes.size ∧ p ∉ a.freeNodes ∧ n < a.graph.nodes.size ∧ n ∉ a.freeNodes ∧
      a.graph.layerOf n = a.graph.layerOf p + 1
  | .removeArc e => a.graph.arcIsActive e = true
  | .removeNode n => a.graph.isActive n = true
  | .setState n _ _ => n < a.graph.nodes.size
  | .align _ | .synchronise _ => True

/-- Each request may be asked for where the ones before it have led. -/
def Permits : Arena → List GraphRequest → Prop
  | _, [] => True
  | a, q :: requests => a.Allows q ∧ ∀ b ∈ a.perform q, b.Permits requests

instance (a : Arena) : (q : GraphRequest) → Decidable (a.Allows q)
  | .createNode l _ => inferInstanceAs (Decidable (l < a.graph.layers.size))
  | .addArc _ _ _ => inferInstanceAs (Decidable (_ ∧ _))
  | .removeArc e => inferInstanceAs (Decidable (a.graph.arcIsActive e = true))
  | .removeNode n => inferInstanceAs (Decidable (a.graph.isActive n = true))
  | .setState n _ _ => inferInstanceAs (Decidable (n < a.graph.nodes.size))
  | .align _ | .synchronise _ => isTrue trivial

instance decidablePermits : (a : Arena) → (requests : List GraphRequest) → Decidable (a.Permits requests)
  | _, [] => isTrue trivial
  | a, q :: requests =>
    have (b : Arena) : Decidable (b.Permits requests) := decidablePermits b requests
    inferInstanceAs (Decidable (a.Allows q ∧ ∀ b ∈ a.perform q, b.Permits requests))

/-- What is asked for is done, and the arena holds what the history has then. -/
theorem Mirrors.perform {q : GraphRequest} (m : a.Mirrors h) (hq : a.Allows q) :
    ∃ b, a.perform q = some b ∧ b.Mirrors (q.onHistory h) := by
  cases q with
  | createNode l states =>
    have hl : l < h.current.layers.size := m.shows.layers ▸ hq
    obtain ⟨b, hb, hw⟩ := m.shows.createNode states hl
    exact ⟨b, by rw [Arena.perform, hb]; rfl, m.wrote (.createNode states hl) hw trivial⟩
  | addArc p n v =>
    obtain ⟨hp, hpfree, hn, hnfree, hl⟩ := hq
    have hp := m.shows.lt_of_notMem hp hpfree
    have hn := m.shows.lt_of_notMem hn hnfree
    have hl : h.current.layerOf n = h.current.layerOf p + 1 := by
      rwa [Graph.layerOf, Graph.layerOf, m.shows.node hn, m.shows.node hp] at hl
    obtain ⟨b, hb, hw⟩ := m.shows.addArc hp hn hl v
    exact ⟨b, by rw [Arena.perform, hb]; rfl, m.wrote (.addArc v hp hn hl) hw trivial⟩
  | removeArc e =>
    have he : h.current.arcIsActive e = true := (m.shows.arcIsActive e).symm.trans hq
    obtain ⟨b, hb, hw⟩ := m.shows.removeArc m.wf he
    exact ⟨b, hb, m.wrote (.removeArc he) hw trivial⟩
  | removeNode n =>
    have hn : h.current.isActive n = true := (m.shows.isActive n).symm.trans hq
    obtain ⟨b, hb, hw⟩ := m.shows.removeNode m.wf hn
    exact ⟨b, hb, m.wrote (.removeNode hn) hw trivial⟩
  | setState n side s =>
    obtain ⟨b, hb, hw⟩ := m.shows.setState side s hq
    refine ⟨b, hb, m.wrote (.setState s fun hn => ?_) hw (lt_of_lt_of_le hq hw.slots)⟩
    rw [Graph.state, m.shows.node hn, Graph.state]
  | align target => exact ⟨_, rfl, m.align target⟩
  | synchronise target => exact m.synchronise target

theorem Mirrors.performAll {requests : List GraphRequest} (m : a.Mirrors h) (hq : a.Permits requests) :
    ∃ b, a.performAll requests = some b ∧ b.Mirrors (requests.foldl GraphRequest.onHistory h) := by
  induction requests generalizing a h with
  | nil => exact ⟨a, rfl, m⟩
  | cons q requests ih =>
    obtain ⟨b, hb, mb⟩ := m.perform hq.1
    obtain ⟨d, hd, md⟩ := ih mb (hq.2 b hb)
    refine ⟨d, ?_, md⟩
    rw [Arena.performAll, List.foldlM_cons, hb]
    exact hd

/-- What is recorded of nodes and arcs agrees with the lists, which hold what is active once and nothing else, and
no free slot is in use. -/
structure Consistent (a : Arena) : Prop where
  position : ∀ n, a.graph.isActive n = true →
    (a.graph.layer (a.graph.layerOf n))[(a.graph.node n).position]? = some n
  mem_layer : ∀ l n, n ∈ a.graph.layer l ↔ a.graph.isActive n = true ∧ a.graph.layerOf n = l
  nodup_layer : ∀ l, (a.graph.layer l).toList.Nodup
  outIndex : ∀ e, a.graph.arcIsActive e = true →
    (a.graph.outgoing (a.graph.arc e).parent)[(a.graph.arc e).outIndex]? = some e
  inIndex : ∀ e, a.graph.arcIsActive e = true →
    (a.graph.incoming (a.graph.arc e).child)[(a.graph.arc e).inIndex]? = some e
  mem_outgoing : ∀ n e, e ∈ a.graph.outgoing n ↔ a.graph.arcIsActive e = true ∧ (a.graph.arc e).parent = n
  mem_incoming : ∀ n e, e ∈ a.graph.incoming n ↔ a.graph.arcIsActive e = true ∧ (a.graph.arc e).child = n
  nodup_outgoing : ∀ n, (a.graph.outgoing n).toList.Nodup
  nodup_incoming : ∀ n, (a.graph.incoming n).toList.Nodup
  nodup_freeNodes : a.freeNodes.Nodup
  nodup_freeArcs : a.freeArcs.Nodup
  unused_node : ∀ n ∈ a.freeNodes, n < a.graph.nodes.size ∧ a.graph.isActive n = false ∧
    (∀ l, n ∉ a.graph.layer l) ∧ a.graph.outgoing n = #[] ∧ a.graph.incoming n = #[]
  unused_arc : ∀ e ∈ a.freeArcs, e < a.graph.arcs.size ∧ a.graph.arcIsActive e = false ∧
    ∀ n, e ∉ a.graph.outgoing n ∧ e ∉ a.graph.incoming n

theorem Shows.consistent (hs : a.Shows g) (w : g.Wf) : a.Consistent := by
  have wa := hs.wf w
  refine
    { position := wa.layer_of_node
      mem_layer := fun l n => wa.mem_layer
      nodup_layer := wa.nodup_layer
      outIndex := wa.out_of_arc
      inIndex := wa.in_of_arc
      mem_outgoing := fun n e => wa.mem_outgoing
      mem_incoming := fun n e => wa.mem_incoming
      nodup_outgoing := wa.nodup_outgoing
      nodup_incoming := wa.nodup_incoming
      nodup_freeNodes := ?_
      nodup_freeArcs := ?_
      unused_node := fun n hn => ?_
      unused_arc := fun e he => ?_ }
  all_goals obtain ⟨ns, es, j, spares, rfl⟩ := hs
  · exact List.nodup_range'
  · exact List.nodup_range'
  · obtain ⟨hge, hlt⟩ := List.mem_range'_1.1 hn
    have hactive : (g.padded ns es).isActive n = false := by
      rw [spares.isActive_padded, Graph.isActive, Graph.node_of_ge g hge]
      rfl
    refine ⟨hlt.trans_eq Graph.size_padded.symm, hactive, fun l hl => ?_, ?_, ?_⟩
    · exact Bool.false_ne_true (hactive.symm.trans (wa.mem_layer.1 hl).1)
    · exact (spares.outgoing_padded n).trans (by rw [Graph.outgoing, Graph.node_of_ge g hge]; rfl)
    · exact (spares.incoming_padded n).trans (by rw [Graph.incoming, Graph.node_of_ge g hge]; rfl)
  · obtain ⟨hge, hlt⟩ := List.mem_range'_1.1 he
    have hactive : (g.padded ns es).arcIsActive e = false := by
      rw [spares.arcIsActive_padded, Graph.arcIsActive, Graph.arc_of_ge g hge]
      rfl
    refine ⟨hlt.trans_eq Graph.arcs_size_padded.symm, hactive, fun n => ⟨fun hm => ?_, fun hm => ?_⟩⟩
    · exact Bool.false_ne_true (hactive.symm.trans (wa.mem_outgoing.1 hm).1)
    · exact Bool.false_ne_true (hactive.symm.trans (wa.mem_incoming.1 hm).1)

/-- Whatever is permitted is done, no check fails, and the arena is consistent afterwards. It holds the graph which
the history of whole graphs has then. -/
theorem consistent_performAll (count : Nat) (requests : List GraphRequest)
    (h : (withLayers count).Permits requests) :
    ∃ a, (withLayers count).performAll requests = some a ∧ a.Consistent ∧
      a.Shows (requests.foldl GraphRequest.onHistory { current := Graph.withLayers count }).current := by
  obtain ⟨a, ha, m⟩ := (mirrors_withLayers count).performAll h
  exact ⟨a, ha, m.shows.consistent m.wf, m.shows⟩

/-- A diamond, one of whose middle nodes is replaced above level 1. Back at level 0 the slots of the replacement are
handed out once more. -/
def detour : List GraphRequest :=
  [.createNode 0 (.all default), .createNode 1 (.all default), .createNode 1 (.all default),
    .createNode 2 (.all default), .addArc 0 1 0, .addArc 1 3 0, .addArc 0 2 1, .addArc 2 3 1,
    .align 1, .removeArc 0, .removeArc 1, .removeNode 1, .createNode 1 (.all default), .addArc 0 4 9, .addArc 4 3 9,
    .setState 0 .down default,
    .synchronise 0, .createNode 1 (.all default), .addArc 0 4 2]

theorem consistent_detour : (withLayers 3).Permits detour ∧
    ((withLayers 3).performAll detour).map (fun a => (a.graph.layer 1, a.freeNodes, a.freeArcs)) =
      some (#[1, 2, 4], [], [5]) ∧
    ∃ a, (withLayers 3).performAll detour = some a ∧ a.Consistent ∧
      a.Shows (detour.foldl GraphRequest.onHistory { current := Graph.withLayers 3 }).current :=
  ⟨by decide +kernel, by decide +kernel, consistent_performAll 3 detour (by decide +kernel)⟩

end Arena
end DecisionDiagrams
