import DecisionDiagrams.Proofs.Engine.Computes

/-! What stays while a diagram is worked on. Nodes and arcs are only added at the end and only ever
become inactive, an arc keeps its label and its endpoints, a node its layer, and domains only lose
values. `Tidies` says of a step that it keeps a workspace tidy and goes on in this way. -/

namespace DecisionDiagrams

open Work Cascade

namespace Workspace

variable {w : Workspace} {n : NodeId} {side : Side} {s : State}

theorem state_putState (hn : n < w.graph.nodes.size) (m : NodeId) (side' : Side) :
    (w.putState n side s).graph.state m side' =
      if m = n ∧ side' = side then s else w.graph.state m side' := by
  show ((w.graph.putState n side s).node m).states.get side' = _
  rw [Graph.node_putState w.graph n side s hn]
  by_cases hm : m = n
  · cases side <;> cases side' <;> simp [hm, BySide.get, BySide.set, BySide.modify, Graph.state]
  · simp only [hm, false_and, if_false]
    rfl

theorem state_putState_self (hn : n < w.graph.nodes.size) : (w.putState n side s).graph.state n side = s := by
  rw [state_putState hn, if_pos ⟨rfl, rfl⟩]

theorem state_putState_of_ne (hn : n < w.graph.nodes.size) {side' : Side} (h : side' ≠ side) (m : NodeId) :
    (w.putState n side s).graph.state m side' = w.graph.state m side' := by
  rw [state_putState hn, if_neg fun e => h e.2]

theorem layerOf_putState (hn : n < w.graph.nodes.size) (m : NodeId) :
    (w.putState n side s).graph.layerOf m = w.graph.layerOf m := by
  show ((w.graph.putState n side s).node m).layer = _
  rw [Graph.node_putState w.graph n side s hn]
  rfl

theorem isActive_putState (hn : n < w.graph.nodes.size) (m : NodeId) :
    (w.putState n side s).graph.isActive m = w.graph.isActive m := by
  show ((w.graph.putState n side s).node m).active = _
  rw [Graph.node_putState w.graph n side s hn]
  rfl

end Workspace

structure Evolves (w w' : Workspace) : Prop where
  nodes : w.graph.nodes.size ≤ w'.graph.nodes.size
  arcs : w.graph.arcs.size ≤ w'.graph.arcs.size
  layerOf : ∀ n < w.graph.nodes.size, w'.graph.layerOf n = w.graph.layerOf n
  active : ∀ n < w.graph.nodes.size, w'.graph.isActive n = true → w.graph.isActive n = true
  value : ∀ a < w.graph.arcs.size, (w'.graph.arc a).value = (w.graph.arc a).value
  parent : ∀ a < w.graph.arcs.size, (w'.graph.arc a).parent = (w.graph.arc a).parent
  child : ∀ a < w.graph.arcs.size, (w'.graph.arc a).child = (w.graph.arc a).child
  arcActive : ∀ a < w.graph.arcs.size, w'.graph.arcIsActive a = true → w.graph.arcIsActive a = true
  domains : w.domains.Narrows w'.domains
  upKnown : w.upKnown = true → w'.upKnown = true
  built : w.built = true → w'.built = true

namespace Evolves

variable {a b c w w' : Workspace}

theorem refl (w : Workspace) : Evolves w w :=
  ⟨Nat.le_refl _, Nat.le_refl _, fun _ _ => rfl, fun _ _ h => h, fun _ _ => rfl, fun _ _ => rfl,
    fun _ _ => rfl, fun _ _ h => h, .refl _, id, id⟩

theorem trans (h : Evolves a b) (k : Evolves b c) : Evolves a c where
  nodes := Nat.le_trans h.nodes k.nodes
  arcs := Nat.le_trans h.arcs k.arcs
  layerOf n hn := (k.layerOf n (Nat.lt_of_lt_of_le hn h.nodes)).trans (h.layerOf n hn)
  active n hn ha := h.active n hn (k.active n (Nat.lt_of_lt_of_le hn h.nodes) ha)
  value x hx := (k.value x (Nat.lt_of_lt_of_le hx h.arcs)).trans (h.value x hx)
  parent x hx := (k.parent x (Nat.lt_of_lt_of_le hx h.arcs)).trans (h.parent x hx)
  child x hx := (k.child x (Nat.lt_of_lt_of_le hx h.arcs)).trans (h.child x hx)
  arcActive x hx ha := h.arcActive x hx (k.arcActive x (Nat.lt_of_lt_of_le hx h.arcs) ha)
  domains := h.domains.trans k.domains
  upKnown hu := k.upKnown (h.upKnown hu)
  built hb := k.built (h.built hb)

/-- Nothing happens to the graph. -/
theorem of_graph (hg : w'.graph = w.graph) (hd : w.domains.Narrows w'.domains)
    (hu : w.upKnown = true → w'.upKnown = true) (hb : w.built = true → w'.built = true) :
    Evolves w w' := by
  constructor
  case nodes => exact Nat.le_of_eq (by rw [hg])
  case arcs => exact Nat.le_of_eq (by rw [hg])
  case layerOf => exact fun _ _ => by rw [hg]
  case active => exact fun _ _ h => hg ▸ h
  case value => exact fun _ _ => by rw [hg]
  case parent => exact fun _ _ => by rw [hg]
  case child => exact fun _ _ => by rw [hg]
  case arcActive => exact fun _ _ h => hg ▸ h
  case domains => exact hd
  case upKnown => exact hu
  case built => exact hb

theorem of_quiet {p : Plan} (h : Quiet p w w') : Evolves w w' :=
  of_graph h.graph (by rw [h.domains]; exact .refl _) (by rw [h.upKnown]; exact id)
    (by rw [h.built]; exact id)

theorem of_shrinks (h : Shrinks w w') : Evolves w w' where
  nodes := Nat.le_of_eq h.nodes.symm
  arcs := Nat.le_of_eq h.arcs.symm
  layerOf n _ := h.layerOf n
  active n _ := h.active n
  value x _ := h.value x
  parent x _ := h.parent x
  child x _ := h.child x
  arcActive x _ := h.arcActive x
  domains := h.domains
  upKnown hu := h.upKnown.trans hu
  built hb := h.built.trans hb

theorem schedule (p : Plan) (direction : Direction) (r : Demand) (n : NodeId) (w : Workspace) :
    Evolves w (w.schedule p direction r n) := of_shrinks (shrinks_schedule direction r n)

theorem putState {n : NodeId} (hn : n < w.graph.nodes.size) (side : Side) (s : State) :
    Evolves w (w.putState n side s) := by
  have en := Graph.node_putState w.graph n side s hn
  refine ⟨?_, Nat.le_refl _, fun m _ => ?_, fun m _ hm => ?_, fun _ _ => rfl, fun _ _ => rfl,
    fun _ _ => rfl, fun _ _ h => h, .refl _, id, id⟩
  · exact Nat.le_of_eq (Graph.size_putState w.graph n side s).symm
  · show ((w.graph.putState n side s).node m).layer = _
    rw [en]
    rfl
  · change ((w.graph.putState n side s).node m).active = true at hm
    rw [en] at hm
    exact hm

theorem addNode (l : Nat) (s : BySide State) (w : Workspace) : Evolves w (w.addNode l s).2 := by
  have en : ∀ m < w.graph.nodes.size, (w.graph.appendNode l s).2.node m = w.graph.node m :=
    fun m hm => Graph.node_appendNode_of_ne w.graph l s (Nat.ne_of_lt hm)
  refine ⟨?_, Nat.le_refl _, fun m hm => ?_, fun m hm h => ?_, fun _ _ => rfl, fun _ _ => rfl,
    fun _ _ => rfl, fun _ _ h => h, .refl _, id, id⟩
  · exact Nat.le_of_lt (Nat.lt_of_lt_of_eq (Nat.lt_succ_self _)
      (Graph.size_appendNode w.graph l s).symm)
  · exact congrArg Node.layer (en m hm)
  · change ((w.graph.appendNode l s).2.node m).active = true at h
    rw [en m hm] at h
    exact h

theorem connect {n c : NodeId} (hn : n < w.graph.nodes.size) (hc : c < w.graph.nodes.size)
    (v : Int) : Evolves w (w.connect n c v) := by
  have hg : (w.connect n c v).graph = w.graph.connect n c v := rfl
  have en := Graph.node_connect w.graph n c v hn hc
  have ea : ∀ a < w.graph.arcs.size, (w.graph.connect n c v).arc a = w.graph.arc a :=
    fun a ha => Graph.arc_connect_of_ne w.graph n c v (Nat.ne_of_lt ha)
  constructor
  case nodes => exact Nat.le_of_eq (by rw [hg, Graph.size_connect])
  case arcs => rw [hg, Graph.arcs_size_connect]; exact Nat.le_succ _
  case layerOf => exact fun m _ => by rw [hg, Graph.layerOf, en]; rfl
  case active => exact fun m _ hm => by rw [hg, Graph.isActive, en] at hm; exact hm
  case value => exact fun a ha => by rw [hg, ea a ha]
  case parent => exact fun a ha => by rw [hg, ea a ha]
  case child => exact fun a ha => by rw [hg, ea a ha]
  case arcActive => exact fun a ha h => by rwa [hg, Graph.arcIsActive, ea a ha] at h
  case domains => unfold Workspace.connect; exact .refl _
  case upKnown => unfold Workspace.connect; exact id
  case built => unfold Workspace.connect; exact id

end Evolves

/-- A step which keeps a workspace tidy, unless it stops the propagation. -/
def Tidies {α : Type} (p : Plan) (stale : Nat → Prop) (x : Work α) (w : Workspace) : Prop :=
  Tidy p stale [] w →
    wp x (fun _ w' => Tidy p stale [] w' ∧ Evolves w w') (fun _ _ => True) w

end DecisionDiagrams
