import DecisionDiagrams.Graph
import Mathlib.Tactic.Common

/-! What each operation on a graph does to what can be seen of it: which nodes and arcs are active,
between which nodes an arc leads, which layer and which states a node has. Only the lists of arcs
and the places recorded in them are moved around; the rest is changed at one node or arc. -/

namespace DecisionDiagrams

theorem dropAt_default {i : Nat} : dropAt default i = default := by
  unfold dropAt
  exact dif_neg (Nat.not_lt_zero i)

theorem size_dropAt {xs : Array Nat} {i : Nat} (h : i < xs.size) :
    (dropAt xs i).size = xs.size - 1 := by
  simp [dropAt, h]

/-- The entry at `i` is gone, and the last entry stands in its place. -/
theorem getElem?_dropAt {xs : Array Nat} {i j : Nat} (h : i < xs.size) :
    (dropAt xs i)[j]? =
      if j < xs.size - 1 then (if j = i then xs[xs.size - 1]? else xs[j]?) else none := by
  unfold dropAt
  rw [dif_pos h]
  by_cases hj : j < xs.size - 1
  · rw [if_pos hj, Array.getElem?_pop]
    rw [Array.size_swap, if_pos hj, Array.getElem?_swap]
    by_cases e : j = i
    · subst e
      simp only [if_true]
      rw [if_neg (by omega)]
      simp [show xs.size - 1 < xs.size by omega]
    · have : xs.size - 1 ≠ j := by omega
      simp [Ne.symm e, e, this]
  · rw [if_neg hj, Array.getElem?_pop, Array.size_swap, if_neg hj]

theorem getD_modify {α : Type} [Inhabited α] (xs : Array α) (f : α → α) (i j : Nat)
    (hf : i < xs.size ∨ f default = default) :
    (xs.modify i f).getD j default = if j = i then f (xs.getD j default) else xs.getD j default := by
  rw [Array.getD_eq_getD_getElem?, Array.getElem?_modify, Array.getD_eq_getD_getElem?]
  by_cases e : j = i
  · subst e
    rw [if_pos rfl, if_pos rfl]
    rcases Nat.lt_or_ge j xs.size with h | h
    · simp [h]
    · have := hf.resolve_left (Nat.not_lt.2 h)
      simp [h, this]
  · rw [if_neg (Ne.symm e), if_neg e]

namespace Graph

variable (g : Graph)

theorem node_of_ge {n : NodeId} (h : g.nodes.size ≤ n) : g.node n = default := by
  simp [node, Array.getD, Nat.not_lt.2 h]

theorem arc_of_ge {a : ArcId} (h : g.arcs.size ≤ a) : g.arc a = default := by
  simp [arc, Array.getD, Nat.not_lt.2 h]

theorem lt_of_isActive {n : NodeId} (h : g.isActive n = true) : n < g.nodes.size := by
  by_contra hn
  rw [isActive, node_of_ge g (Nat.not_lt.1 hn)] at h
  exact Bool.noConfusion h

theorem lt_of_arcIsActive {a : ArcId} (h : g.arcIsActive a = true) : a < g.arcs.size := by
  by_contra hn
  rw [arcIsActive, arc_of_ge g (Nat.not_lt.1 hn)] at h
  exact Bool.noConfusion h

/-! ### Adding a node -/

section appendNode

variable (l : Nat) (s : BySide State)

@[simp] theorem arcs_appendNode : (g.appendNode l s).2.arcs = g.arcs := rfl

@[simp] theorem size_appendNode : (g.appendNode l s).2.nodes.size = g.nodes.size + 1 := by
  simp [appendNode]

@[simp] theorem arc_appendNode (a : ArcId) : (g.appendNode l s).2.arc a = g.arc a := rfl

theorem node_appendNode (n : NodeId) :
    (g.appendNode l s).2.node n =
      if n = g.nodes.size then
        { layer := l, position := g.width l, active := true, states := s,
          outgoing := #[], incoming := #[] }
      else g.node n := by
  simp only [node, appendNode]
  rw [Array.getD_eq_getD_getElem?, Array.getElem?_push, Array.getD_eq_getD_getElem?]
  split_ifs <;> rfl

@[simp] theorem node_appendNode_self :
    (g.appendNode l s).2.node g.nodes.size =
      { layer := l, position := g.width l, active := true, states := s,
        outgoing := #[], incoming := #[] } := by
  rw [node_appendNode, if_pos rfl]

theorem node_appendNode_of_ne {n : NodeId} (h : n ≠ g.nodes.size) :
    (g.appendNode l s).2.node n = g.node n := by
  rw [node_appendNode, if_neg h]

@[simp] theorem layers_size_appendNode : (g.appendNode l s).2.layers.size = g.layers.size := by
  simp [appendNode]

theorem layer_appendNode (k : Nat) (h : l < g.layers.size) :
    (g.appendNode l s).2.layer k = if k = l then (g.layer k).push g.nodes.size else g.layer k := by
  exact getD_modify g.layers _ l k (Or.inl h)

end appendNode

/-! ### Adding an arc -/

section connect

variable (p c : NodeId) (v : Int)

@[simp] theorem size_connect : (g.connect p c v).nodes.size = g.nodes.size := by
  simp [connect]

@[simp] theorem arcs_size_connect : (g.connect p c v).arcs.size = g.arcs.size + 1 := by
  simp [connect]

@[simp] theorem layers_connect : (g.connect p c v).layers = g.layers := rfl

@[simp] theorem layer_connect (k : Nat) : (g.connect p c v).layer k = g.layer k := rfl

theorem arc_connect (a : ArcId) :
    (g.connect p c v).arc a =
      if a = g.arcs.size then
        { value := v, parent := p, child := c, outIndex := (g.outgoing p).size,
          inIndex := (g.incoming c).size, active := true }
      else g.arc a := by
  simp only [arc, connect]
  rw [Array.getD_eq_getD_getElem?, Array.getElem?_push, Array.getD_eq_getD_getElem?]
  split_ifs <;> rfl

@[simp] theorem arc_connect_self :
    (g.connect p c v).arc g.arcs.size =
      { value := v, parent := p, child := c, outIndex := (g.outgoing p).size,
        inIndex := (g.incoming c).size, active := true } := by
  rw [arc_connect, if_pos rfl]

theorem arc_connect_of_ne {a : ArcId} (h : a ≠ g.arcs.size) :
    (g.connect p c v).arc a = g.arc a := by
  rw [arc_connect, if_neg h]

theorem arc_connect_of_active {a : ArcId} (h : g.arcIsActive a = true) :
    (g.connect p c v).arc a = g.arc a :=
  arc_connect_of_ne g p c v (Nat.ne_of_lt (lt_of_arcIsActive g h))

theorem node_connect (hp : p < g.nodes.size) (hc : c < g.nodes.size) (n : NodeId) :
    (g.connect p c v).node n =
      { g.node n with
        outgoing := if n = p then (g.outgoing n).push g.arcs.size else g.outgoing n
        incoming := if n = c then (g.incoming n).push g.arcs.size else g.incoming n } := by
  simp only [node, connect]
  rw [getD_modify _ _ _ _ (Or.inl (by simpa using hc)), getD_modify _ _ _ _ (Or.inl hp)]
  simp only [outgoing, incoming, node]
  split_ifs <;> rfl

end connect

/-! ### Replacing a state -/

section putState

variable (n : NodeId) (side : Side) (s : State)

@[simp] theorem arcs_putState : (g.putState n side s).arcs = g.arcs := rfl

@[simp] theorem arc_putState (a : ArcId) : (g.putState n side s).arc a = g.arc a := rfl

@[simp] theorem layers_putState : (g.putState n side s).layers = g.layers := rfl

@[simp] theorem layer_putState (k : Nat) : (g.putState n side s).layer k = g.layer k := rfl

@[simp] theorem size_putState : (g.putState n side s).nodes.size = g.nodes.size := by
  simp [putState]

theorem node_putState (h : n < g.nodes.size) (m : NodeId) :
    (g.putState n side s).node m =
      { g.node m with
        states := if m = n then (g.node m).states.set side s else (g.node m).states } := by
  simp only [node, putState]
  rw [getD_modify _ _ _ _ (Or.inl h)]
  split_ifs <;> rfl

end putState

/-! ### Taking an arc out of the lists of its endpoints -/

section unhook

variable {g} {a : ArcId}

theorem mem_of_dropAt {xs : Array Nat} {i j b : Nat} (h : (dropAt xs i)[j]? = some b) : b ∈ xs := by
  by_cases hi : i < xs.size
  · rw [getElem?_dropAt hi] at h
    split_ifs at h
    · exact Array.mem_of_getElem? h
    · exact Array.mem_of_getElem? h
  · unfold dropAt at h
    rw [dif_neg hi] at h
    exact Array.mem_of_getElem? h

theorem nodes_unhookParent :
    (g.unhookParent a).nodes = g.nodes.modify (g.arc a).parent fun n =>
      { n with outgoing := dropAt n.outgoing (g.arc a).outIndex } := by
  unfold unhookParent
  dsimp only
  split <;> rfl

theorem nodes_unhookChild :
    (g.unhookChild a).nodes = g.nodes.modify (g.arc a).child fun n =>
      { n with incoming := dropAt n.incoming (g.arc a).inIndex } := by
  unfold unhookChild
  dsimp only
  split <;> rfl

theorem layers_unhookParent : (g.unhookParent a).layers = g.layers := by
  unfold unhookParent
  dsimp only
  split <;> rfl

theorem layers_unhookChild : (g.unhookChild a).layers = g.layers := by
  unfold unhookChild
  dsimp only
  split <;> rfl

theorem node_unhookParent (m : NodeId) :
    (g.unhookParent a).node m =
      { g.node m with
        outgoing := if m = (g.arc a).parent then dropAt (g.outgoing m) (g.arc a).outIndex
          else g.outgoing m } := by
  unfold node
  rw [nodes_unhookParent, getD_modify _ _ _ _ (Or.inr (by rfl))]
  simp only [outgoing, node]
  split_ifs <;> rfl

theorem node_unhookChild (m : NodeId) :
    (g.unhookChild a).node m =
      { g.node m with
        incoming := if m = (g.arc a).child then dropAt (g.incoming m) (g.arc a).inIndex
          else g.incoming m } := by
  unfold node
  rw [nodes_unhookChild, getD_modify _ _ _ _ (Or.inr (by rfl))]
  simp only [incoming, node]
  split_ifs <;> rfl

theorem arc_unhookParent (h : ∀ b ∈ g.outgoing (g.arc a).parent, b < g.arcs.size) (b : ArcId) :
    (g.unhookParent a).arc b =
      { g.arc b with
        outIndex :=
          if (dropAt (g.outgoing (g.arc a).parent) (g.arc a).outIndex)[(g.arc a).outIndex]? = some b
          then (g.arc a).outIndex else (g.arc b).outIndex } := by
  have e : outgoing { g with nodes := g.nodes.modify (g.arc a).parent fun n =>
      { n with outgoing := dropAt n.outgoing (g.arc a).outIndex } } (g.arc a).parent =
      dropAt (g.outgoing (g.arc a).parent) (g.arc a).outIndex := by
    unfold outgoing node
    dsimp only
    rw [getD_modify _ _ _ _ (Or.inr (by rfl)), if_pos rfl]
  unfold unhookParent
  dsimp only
  rw [e]
  split
  · rename_i moved hm
    rw [hm]
    unfold arc
    dsimp only
    rw [getD_modify _ _ _ _ (Or.inl (h moved (mem_of_dropAt hm)))]
    by_cases eb : b = moved
    · subst eb; simp
    · rw [if_neg eb, if_neg fun c => eb (Option.some.inj c).symm]
  · rename_i hm
    rw [hm]
    simp [arc]

theorem arc_unhookChild (h : ∀ b ∈ g.incoming (g.arc a).child, b < g.arcs.size) (b : ArcId) :
    (g.unhookChild a).arc b =
      { g.arc b with
        inIndex :=
          if (dropAt (g.incoming (g.arc a).child) (g.arc a).inIndex)[(g.arc a).inIndex]? = some b
          then (g.arc a).inIndex else (g.arc b).inIndex } := by
  have e : incoming { g with nodes := g.nodes.modify (g.arc a).child fun n =>
      { n with incoming := dropAt n.incoming (g.arc a).inIndex } } (g.arc a).child =
      dropAt (g.incoming (g.arc a).child) (g.arc a).inIndex := by
    unfold incoming node
    dsimp only
    rw [getD_modify _ _ _ _ (Or.inr (by rfl)), if_pos rfl]
  unfold unhookChild
  dsimp only
  rw [e]
  split
  · rename_i moved hm
    rw [hm]
    unfold arc
    dsimp only
    rw [getD_modify _ _ _ _ (Or.inl (h moved (mem_of_dropAt hm)))]
    by_cases eb : b = moved
    · subst eb; simp
    · rw [if_neg eb, if_neg fun c => eb (Option.some.inj c).symm]
  · rename_i hm
    rw [hm]
    simp [arc]

theorem arcs_size_unhookParent : (g.unhookParent a).arcs.size = g.arcs.size := by
  unfold unhookParent
  dsimp only
  split <;> simp

theorem arcs_size_unhookChild : (g.unhookChild a).arcs.size = g.arcs.size := by
  unfold unhookChild
  dsimp only
  split <;> simp

end unhook

/-! ### Removing an arc -/

section detach

variable {g} {a : ArcId}

/-- The lists of arcs at both ends of `a` hold arcs of the graph. -/
structure Listed (g : Graph) (a : ArcId) : Prop where
  outgoing : ∀ b ∈ g.outgoing (g.arc a).parent, b < g.arcs.size
  incoming : ∀ b ∈ g.incoming (g.arc a).child, b < g.arcs.size

@[simp] theorem layers_detach : (g.detach a).layers = g.layers := by
  unfold detach
  dsimp only
  rw [layers_unhookChild, layers_unhookParent]

@[simp] theorem layer_detach (k : Nat) : (g.detach a).layer k = g.layer k := by
  unfold layer
  rw [layers_detach]

theorem node_detach (h : Listed g a) (m : NodeId) :
    (g.detach a).node m =
      { g.node m with
        outgoing := if m = (g.arc a).parent then dropAt (g.outgoing m) (g.arc a).outIndex
          else g.outgoing m
        incoming := if m = (g.arc a).child then dropAt (g.incoming m) (g.arc a).inIndex
          else g.incoming m } := by
  have e : (g.detach a).node m = ((g.unhookParent a).unhookChild a).node m := by
    unfold detach
    generalize (g.unhookParent a).unhookChild a = g'
    rfl
  rw [e, node_unhookChild, arc_unhookParent h.outgoing]
  simp only [incoming, node_unhookParent]

theorem size_detach : (g.detach a).nodes.size = g.nodes.size := by
  unfold detach
  simp [nodes_unhookChild, nodes_unhookParent]

theorem arcs_size_detach : (g.detach a).arcs.size = g.arcs.size := by
  unfold detach
  simp [arcs_size_unhookChild, arcs_size_unhookParent]

/-- Arc `b` after arc `a` was removed: the last arc of each list moved to the place of `a`. -/
theorem arc_detach (h : Listed g a) (b : ArcId) :
    (g.detach a).arc b =
      { g.arc b with
        active := if b = a then false else (g.arc b).active
        outIndex :=
          if (dropAt (g.outgoing (g.arc a).parent) (g.arc a).outIndex)[(g.arc a).outIndex]? = some b
          then (g.arc a).outIndex else (g.arc b).outIndex
        inIndex :=
          if (dropAt (g.incoming (g.arc a).child) (g.arc a).inIndex)[(g.arc a).inIndex]? = some b
          then (g.arc a).inIndex else (g.arc b).inIndex } := by
  have hp := arc_unhookParent (g := g) (a := a) h.outgoing
  have hin : (g.unhookParent a).incoming (g.arc a).child = g.incoming (g.arc a).child := by
    simp only [incoming, node_unhookParent]
  have hc := arc_unhookChild (g := g.unhookParent a) (a := a) (by
    simp only [hp, hin, arcs_size_unhookParent]
    exact h.incoming)
  have hd : (g.detach a).arc b =
      if b = a then { ((g.unhookParent a).unhookChild a).arc b with active := false }
      else ((g.unhookParent a).unhookChild a).arc b := by
    unfold detach
    generalize (g.unhookParent a).unhookChild a = g'
    exact getD_modify _ _ _ _ (Or.inr rfl)
  rw [hd, hc]
  simp only [hp, hin]
  by_cases e : b = a <;> simp [e]

@[simp] theorem value_detach (h : Listed g a) (b : ArcId) :
    ((g.detach a).arc b).value = (g.arc b).value := by rw [arc_detach h]

@[simp] theorem parent_detach (h : Listed g a) (b : ArcId) :
    ((g.detach a).arc b).parent = (g.arc b).parent := by rw [arc_detach h]

@[simp] theorem child_detach (h : Listed g a) (b : ArcId) :
    ((g.detach a).arc b).child = (g.arc b).child := by rw [arc_detach h]

theorem arcIsActive_detach (h : Listed g a) (b : ArcId) :
    (g.detach a).arcIsActive b = true ↔ b ≠ a ∧ g.arcIsActive b = true := by
  unfold arcIsActive
  rw [arc_detach h]
  by_cases e : b = a <;> simp [e]

@[simp] theorem isActive_detach (h : Listed g a) (n : NodeId) :
    (g.detach a).isActive n = g.isActive n := by simp only [isActive, node_detach h]

@[simp] theorem layerOf_detach (h : Listed g a) (n : NodeId) :
    (g.detach a).layerOf n = g.layerOf n := by simp only [layerOf, node_detach h]

@[simp] theorem state_detach (h : Listed g a) (n : NodeId) (side : Side) :
    (g.detach a).state n side = g.state n side := by simp only [state, node_detach h]

theorem outgoing_detach (h : Listed g a) (n : NodeId) :
    (g.detach a).outgoing n =
      if n = (g.arc a).parent then dropAt (g.outgoing n) (g.arc a).outIndex else g.outgoing n := by
  rw [outgoing, node_detach h]

theorem incoming_detach (h : Listed g a) (n : NodeId) :
    (g.detach a).incoming n =
      if n = (g.arc a).child then dropAt (g.incoming n) (g.arc a).inIndex else g.incoming n := by
  rw [incoming, node_detach h]

end detach

/-! ### Removing a node -/

section withdraw

variable {g} {n : NodeId}

@[simp] theorem arcs_withdraw : (g.withdraw n).arcs = g.arcs := by
  unfold withdraw
  dsimp only
  split <;> rfl

@[simp] theorem arc_withdraw (a : ArcId) : (g.withdraw n).arc a = g.arc a := by
  unfold arc
  rw [arcs_withdraw]

theorem layers_withdraw :
    (g.withdraw n).layers = g.layers.modify (g.layerOf n) (dropAt · (g.node n).position) := by
  unfold withdraw
  dsimp only
  split <;> rfl

@[simp] theorem layers_size_withdraw : (g.withdraw n).layers.size = g.layers.size := by
  rw [layers_withdraw, Array.size_modify]

theorem layer_withdraw (k : Nat) :
    (g.withdraw n).layer k =
      if k = g.layerOf n then dropAt (g.layer k) (g.node n).position else g.layer k := by
  unfold layer
  rw [layers_withdraw]
  exact getD_modify _ _ _ _ (Or.inr dropAt_default)

@[simp] theorem size_withdraw : (g.withdraw n).nodes.size = g.nodes.size := by
  unfold withdraw
  dsimp only
  split <;> simp

/-- Node `m` after node `n` was removed: the last node of the layer moved to the place of `n`. -/
theorem node_withdraw (h : ∀ m ∈ g.layer (g.layerOf n), m < g.nodes.size) (m : NodeId) :
    (g.withdraw n).node m =
      { g.node m with
        active := if m = n then false else (g.node m).active
        position :=
          if (dropAt (g.layer (g.layerOf n)) (g.node n).position)[(g.node n).position]? = some m
          then (g.node n).position else (g.node m).position } := by
  have e : layer { g with layers := g.layers.modify (g.layerOf n) (dropAt · (g.node n).position) }
      (g.layerOf n) = dropAt (g.layer (g.layerOf n)) (g.node n).position := by
    unfold layer
    dsimp only
    exact (getD_modify _ _ _ _ (Or.inr dropAt_default)).trans (if_pos rfl)
  unfold withdraw
  dsimp only
  rw [e]
  split
  · rename_i moved hm
    rw [hm]
    unfold node
    dsimp only
    rw [getD_modify _ _ _ _ (Or.inr (by rfl)),
      getD_modify _ _ _ _ (Or.inl (h moved (mem_of_dropAt hm)))]
    by_cases em : m = moved
    · subst em; by_cases en : m = n <;> simp [en]
    · rw [if_neg em, if_neg fun c => em (Option.some.inj c).symm]
      by_cases en : m = n <;> simp [en]
  · rename_i hm
    rw [hm]
    unfold node
    dsimp only
    rw [getD_modify _ _ _ _ (Or.inr (by rfl))]
    by_cases en : m = n <;> simp [en]

end withdraw

end Graph
end DecisionDiagrams
