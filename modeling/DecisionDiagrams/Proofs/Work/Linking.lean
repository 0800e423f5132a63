import DecisionDiagrams.Proofs.Work.Edits

/-! Workspaces to which something was added: an arc and the note of a node it feeds, a node beside another one, or
anything, as long as nothing was removed. -/

namespace DecisionDiagrams

open Cascade

/-- Nothing is removed. -/
structure Adds (w w' : Workspace) : Prop extends Evolves w w' where
  active_of : ∀ n, w.graph.isActive n = true → w'.graph.isActive n = true
  arcActive_of : ∀ a, w.graph.arcIsActive a = true → w'.graph.arcIsActive a = true
  domains_eq : w'.domains = w.domains

namespace Adds

variable {p : Plan} {a b c w w' : Workspace}

theorem of_graph (hg : w'.graph = w.graph) (hd : w'.domains = w.domains) (hu : w'.upKnown = w.upKnown)
    (hb : w'.built = w.built) : Adds w w' :=
  { Evolves.of_graph hg (hd ▸ .refl _) (hu ▸ id) (hb ▸ id) with
    active_of := fun _ h => hg ▸ h
    arcActive_of := fun _ h => hg ▸ h
    domains_eq := hd }

theorem refl (w : Workspace) : Adds w w := of_graph rfl rfl rfl rfl

theorem trans (h : Adds a b) (k : Adds b c) : Adds a c :=
  { h.toEvolves.trans k.toEvolves with
    active_of := fun n hn => k.active_of n (h.active_of n hn)
    arcActive_of := fun x hx => k.arcActive_of x (h.arcActive_of x hx)
    domains_eq := k.domains_eq.trans h.domains_eq }

theorem schedule (direction : Direction) (r : Demand) (n : NodeId) (w : Workspace) :
    Adds w (w.schedule p direction r n) :=
  { Evolves.schedule p direction r n w with
    active_of := fun m hm => by rwa [Workspace.graph_schedule]
    arcActive_of := fun x hx => by rwa [Workspace.graph_schedule]
    domains_eq := Workspace.domains_schedule }

theorem connect {n c : NodeId} (hn : n < w.graph.nodes.size) (hc : c < w.graph.nodes.size)
    (v : Int) : Adds w (w.connect n c v) := by
  have hg : (w.connect n c v).graph = w.graph.connect n c v := rfl
  refine { Evolves.connect hn hc v with
    active_of := fun m hm => ?_
    arcActive_of := fun x hx => ?_
    domains_eq := by unfold Workspace.connect; rfl }
  · rw [hg, Graph.isActive, Graph.node_connect _ n c v hn hc]
    exact hm
  · rw [hg, Graph.arcIsActive, Graph.arc_connect_of_active _ n c v hx]
    exact hx

theorem addNode (l : Nat) (s : BySide State) (w : Workspace) : Adds w (w.addNode l s).2 := by
  refine { Evolves.addNode l s w with
    active_of := fun m hm => ?_
    arcActive_of := fun x hx => hx
    domains_eq := rfl }
  have hne := Nat.ne_of_lt (Graph.lt_of_isActive _ hm)
  show ((w.graph.appendNode l s).2.node m).active = true
  rw [Graph.node_appendNode_of_ne w.graph l s hne]
  exact hm

theorem splitNode (l : Nat) (s : BySide State) (w : Workspace) : Adds w (w.splitNode l s) :=
  (addNode l s w).trans (of_graph rfl rfl rfl rfl)

end Adds

/-- An arc is added, and nothing else changes but the agenda. -/
structure Links (q c : NodeId) (v : Int) (w w' : Workspace) : Prop where
  parent_lt : q < w.graph.nodes.size
  child_lt : c < w.graph.nodes.size
  graph : w'.graph = w.graph.connect q c v
  domains : w'.domains = w.domains
  upKnown : w'.upKnown = w.upKnown
  built : w'.built = w.built
  budget : w'.budget = w.budget

namespace Links

variable {q c m : NodeId} {v : Int} {a : ArcId} {w w' : Workspace}

theorem connect (hq : q < w.graph.nodes.size) (hc : c < w.graph.nodes.size) (v : Int) :
    Links q c v w (w.connect q c v) :=
  ⟨hq, hc, rfl, by unfold Workspace.connect; rfl, by unfold Workspace.connect; rfl,
    by unfold Workspace.connect; rfl, by unfold Workspace.connect; rfl⟩

theorem schedule (h : Links q c v w w') (p : Plan) (d : Direction) (r : Demand) (n : NodeId) :
    Links q c v w (w'.schedule p d r n) :=
  have k := shrinks_schedule (p := p) (w := w') d r n
  ⟨h.parent_lt, h.child_lt, Workspace.graph_schedule.trans h.graph, Workspace.domains_schedule.trans h.domains,
    Workspace.upKnown_schedule.trans h.upKnown, k.built.trans h.built, k.budget.trans h.budget⟩

theorem adds (h : Links q c v w w') : Adds w w' :=
  have k := connect h.parent_lt h.child_lt v
  (Adds.connect h.parent_lt h.child_lt v).trans (.of_graph h.graph (h.domains.trans k.domains.symm)
    (h.upKnown.trans k.upKnown.symm) (h.built.trans k.built.symm))

theorem size (h : Links q c v w w') : w'.graph.nodes.size = w.graph.nodes.size := by
  rw [h.graph]
  exact Graph.size_connect ..

theorem node (h : Links q c v w w') (m : NodeId) : (w'.graph.node m).layer = (w.graph.node m).layer ∧
    (w'.graph.node m).active = (w.graph.node m).active ∧ (w'.graph.node m).states = (w.graph.node m).states := by
  rw [h.graph, Graph.node_connect _ _ _ _ h.parent_lt h.child_lt]
  exact ⟨rfl, rfl, rfl⟩

theorem layerOf (h : Links q c v w w') (m : NodeId) : w'.graph.layerOf m = w.graph.layerOf m := (h.node m).1

theorem isActive (h : Links q c v w w') (m : NodeId) : w'.graph.isActive m = w.graph.isActive m := (h.node m).2.1

theorem state (h : Links q c v w w') (m : NodeId) (side : Side) :
    w'.graph.state m side = w.graph.state m side := congrArg (BySide.get · side) (h.node m).2.2

theorem arc_new (h : Links q c v w w') : w'.graph.arcIsActive w.graph.arcs.size = true ∧
    (w'.graph.arc w.graph.arcs.size).parent = q ∧ (w'.graph.arc w.graph.arcs.size).child = c ∧
    (w'.graph.arc w.graph.arcs.size).value = v := by
  rw [h.graph, Graph.arcIsActive, Graph.arc_connect_self]
  exact ⟨rfl, rfl, rfl, rfl⟩

theorem arc_old (h : Links q c v w w') (ha : w.graph.arcIsActive a = true) : w'.graph.arc a = w.graph.arc a := by
  rw [h.graph]
  exact Graph.arc_connect_of_active w.graph q c v ha

/-- An arc was there before or is the new one. -/
theorem arc_cases (h : Links q c v w w') (ha : w'.graph.arcIsActive a = true) :
    (w.graph.arcIsActive a = true ∧ w'.graph.arc a = w.graph.arc a) ∨
      a = w.graph.arcs.size ∧ (w'.graph.arc a).parent = q ∧ (w'.graph.arc a).child = c ∧
        (w'.graph.arc a).value = v := by
  by_cases e : a = w.graph.arcs.size
  · subst e
    exact Or.inr ⟨rfl, h.arc_new.2⟩
  · have same : w'.graph.arc a = w.graph.arc a := by
      rw [h.graph]
      exact Graph.arc_connect_of_ne w.graph q c v e
    rw [Graph.arcIsActive, same] at ha
    exact Or.inl ⟨ha, same⟩

end Links

namespace Workspace

variable {w : Workspace}

/-- A copy of an arc starts from a node. -/
def copying (p : Plan) (new : NodeId) (a : ArcId) (w : Workspace) : Workspace :=
  (w.connect new (w.graph.arc a).child (w.graph.arc a).value).schedule p .down .full (w.graph.arc a).child

/-- A copy of an arc leads to a node. -/
def redirecting (p : Plan) (new : NodeId) (a : ArcId) (w : Workspace) : Workspace :=
  (w.connect (w.graph.arc a).parent new (w.graph.arc a).value).schedule p .up .full (w.graph.arc a).parent

theorem links_copying (p : Plan) {new : NodeId} {a : ArcId} (hn : new < w.graph.nodes.size)
    (hc : (w.graph.arc a).child < w.graph.nodes.size) :
    Links new (w.graph.arc a).child (w.graph.arc a).value w (w.copying p new a) :=
  (Links.connect hn hc _).schedule p _ _ _

theorem links_redirecting (p : Plan) {new : NodeId} {a : ArcId} (hp : (w.graph.arc a).parent < w.graph.nodes.size)
    (hn : new < w.graph.nodes.size) :
    Links (w.graph.arc a).parent new (w.graph.arc a).value w (w.redirecting p new a) :=
  (Links.connect hp hn _).schedule p _ _ _

/-! ### A node which is split off -/

variable {layer : Nat} {states : BySide State}

theorem size_splitNode : (w.splitNode layer states).graph.nodes.size = w.graph.nodes.size + 1 :=
  Graph.size_appendNode w.graph layer states

theorem node_splitNode_self : (w.splitNode layer states).graph.node w.graph.nodes.size =
    { layer, states, position := w.graph.width layer, active := true, outgoing := #[], incoming := #[] } :=
  Graph.node_appendNode_self w.graph layer states

theorem node_splitNode_of_ne {n : NodeId} (h : n ≠ w.graph.nodes.size) :
    (w.splitNode layer states).graph.node n = w.graph.node n :=
  Graph.node_appendNode_of_ne w.graph layer states h

theorem isActive_splitNode {n : NodeId} (h : n ≠ w.graph.nodes.size) :
    (w.splitNode layer states).graph.isActive n = w.graph.isActive n := congrArg Node.active (node_splitNode_of_ne h)

theorem layerOf_splitNode {n : NodeId} (h : n ≠ w.graph.nodes.size) :
    (w.splitNode layer states).graph.layerOf n = w.graph.layerOf n := congrArg Node.layer (node_splitNode_of_ne h)

theorem state_splitNode {n : NodeId} (h : n ≠ w.graph.nodes.size) (side : Side) :
    (w.splitNode layer states).graph.state n side = w.graph.state n side :=
  congrArg (fun node => node.states.get side) (node_splitNode_of_ne h)

theorem isActive_splitNode_self : (w.splitNode layer states).graph.isActive w.graph.nodes.size = true := by
  rw [Graph.isActive, node_splitNode_self]

theorem layerOf_splitNode_self : (w.splitNode layer states).graph.layerOf w.graph.nodes.size = layer := by
  rw [Graph.layerOf, node_splitNode_self]

theorem state_splitNode_self (side : Side) :
    (w.splitNode layer states).graph.state w.graph.nodes.size side = states.get side := by
  rw [Graph.state, node_splitNode_self]

end Workspace

/-- What goes on from a workspace to which a node was added on a layer. -/
structure Sprouts (layer : Nat) (w w' : Workspace) : Prop extends Evolves w w' where
  new_lt : w.graph.nodes.size < w'.graph.nodes.size
  layerOf_new : w'.graph.layerOf w.graph.nodes.size = layer

/-- What goes on so, and removes nothing. -/
structure Stocks (layer : Nat) (w w' : Workspace) : Prop extends Adds w w' where
  isActive_new : w'.graph.isActive w.graph.nodes.size = true
  layerOf_new : w'.graph.layerOf w.graph.nodes.size = layer

section

variable {layer : Nat} {n : NodeId} {a : ArcId} {w w' w'' : Workspace}

theorem Sprouts.evolves (h : Sprouts layer w w') (k : Evolves w' w'') : Sprouts layer w w'' :=
  ⟨h.toEvolves.trans k, Nat.lt_of_lt_of_le h.new_lt k.nodes, (k.layerOf _ h.new_lt).trans h.layerOf_new⟩

/-- The arcs of a bundle lead to a node of a layer. -/
structure Candidate.Enters (layer : Nat) (n : NodeId) (c : Candidate) (w : Workspace) : Prop where
  lt : n < w.graph.nodes.size
  layerOf : w.graph.layerOf n = layer
  arcs : ∀ a ∈ c.arcs, a < w.graph.arcs.size ∧ (w.graph.arc a).child = n

theorem Candidate.Enters.evolves {c : Candidate} (h : c.Enters layer n w) (k : Evolves w w') : c.Enters layer n w' :=
  ⟨Nat.lt_of_lt_of_le h.lt k.nodes, (k.layerOf n h.lt).trans h.layerOf, fun a ha =>
    ⟨Nat.lt_of_lt_of_le (h.arcs a ha).1 k.arcs, (k.child a (h.arcs a ha).1).trans (h.arcs a ha).2⟩⟩

theorem Census.le_depth {p : Plan} {c : Candidate} (h : Census p w) (hc : c.Enters layer n w) :
    layer ≤ p.model.depth := hc.layerOf ▸ h.layerOf_le_of_lt hc.lt

theorem Stocks.splitNode (layer : Nat) (states : BySide State) (w : Workspace) :
    Stocks layer w (w.splitNode layer states) :=
  { Adds.splitNode layer states w with
    isActive_new := Workspace.isActive_splitNode_self
    layerOf_new := Workspace.layerOf_splitNode_self }

theorem Stocks.adds (h : Stocks layer w w') (k : Adds w' w'') : Stocks layer w w'' :=
  { h.toAdds.trans k with
    isActive_new := k.active_of _ h.isActive_new
    layerOf_new := (k.layerOf _ (Graph.lt_of_isActive _ h.isActive_new)).trans h.layerOf_new }

theorem Stocks.sprouts (h : Stocks layer w w') : Sprouts layer w w' :=
  ⟨h.toEvolves, Graph.lt_of_isActive _ h.isActive_new, h.layerOf_new⟩

/-- An arc from an old node of the layer. -/
theorem Stocks.source (h : Stocks layer w w') (hw : w.graph.Wf) (hl : w.graph.layerOf n = layer)
    (ha : a ∈ w.graph.outgoing n) : w'.graph.arcIsActive a = true ∧ (w'.graph.arc a).parent = n ∧
      (w'.graph.arc a).child < w'.graph.nodes.size ∧ w'.graph.layerOf (w'.graph.arc a).child = layer + 1 := by
  obtain ⟨on, hpar⟩ := hw.mem_outgoing.1 ha
  have hlt := Graph.lt_of_arcIsActive _ on
  have hchild := hw.child_lt on
  refine ⟨h.arcActive_of a on, (h.parent a hlt).trans hpar, ?_, ?_⟩
  · rw [h.child a hlt]
    exact Nat.lt_of_lt_of_le hchild h.nodes
  · rw [h.child a hlt, h.layerOf _ hchild, hw.adjacent a on, hpar, hl]

end

end DecisionDiagrams
