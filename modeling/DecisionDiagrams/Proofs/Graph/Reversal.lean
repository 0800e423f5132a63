import DecisionDiagrams.Graph.Arena
import DecisionDiagrams.Proofs.Graph.Wellformed

/-! Each change of the graph is taken back by another one. An entry which was put back stands where it stood
before, and the entry which had taken its place is the last one again, so the graph is brought back as it was,
with its order and its recorded places. -/

namespace DecisionDiagrams

variable {xs : Array Nat} {i j x count : Nat}

/-- Putting back what was taken out. -/
theorem insertAt_dropAt (hx : xs[i]? = some x) : insertAt (dropAt xs i) i x = xs := by
  obtain ⟨hi, -⟩ := Array.getElem?_eq_some_iff.1 hx
  have hsize := size_dropAt hi
  refine Array.ext_getElem? fun j => ?_
  unfold insertAt
  rcases Nat.lt_or_ge i (xs.size - 1) with hlt | hge
  · have hmoved : (dropAt xs i)[i]? = some xs[xs.size - 1] := by
      rw [getElem?_dropAt hi, if_pos hlt, if_pos rfl, Array.getElem?_eq_getElem]
    rw [hmoved]
    dsimp only
    rw [Array.getElem?_push, Array.size_setIfInBounds, hsize, Array.getElem?_setIfInBounds, hsize]
    split_ifs with hlast hij
    · rw [hlast, Array.getElem?_eq_getElem]
    · rw [← hij, hx]
    · rw [getElem?_dropAt hi]
      split_ifs with hj e
      · exact absurd e.symm hij
      · rfl
      · rw [Array.getElem?_eq_none (by omega)]
  · have hgone : (dropAt xs i)[i]? = none := by rw [getElem?_dropAt hi, if_neg (by omega)]
    rw [hgone]
    dsimp only
    rw [Array.getElem?_push, hsize]
    split_ifs with hlast
    · rw [← hx]
      congr 1
      omega
    · rw [getElem?_dropAt hi]
      split_ifs with hj e
      · omega
      · rfl
      · rw [Array.getElem?_eq_none (by omega)]

theorem restored_list {c : Prop} [Decidable c] (hx : c → xs[i]? = some x) :
    (if c then insertAt (if c then dropAt xs i else xs) i x else if c then dropAt xs i else xs) = xs := by
  split_ifs with h
  · exact insertAt_dropAt (hx h)
  · rfl

/-- The entry which moved into the gap was the last one, and is so again. -/
theorem restored_place {place : Nat → Nat} {b : Nat} (hx : xs[i]? = some x)
    (hp : ∀ j b, xs[j]? = some b → place b = j) :
    (if (dropAt xs i)[i]? = some b then (dropAt xs i).size
      else if (dropAt xs i)[i]? = some b then i else place b) = place b := by
  have hi := (Array.getElem?_eq_some_iff.1 hx).1
  split_ifs with hm
  · rw [getElem?_dropAt hi, if_pos rfl] at hm
    split_ifs at hm
    rw [size_dropAt hi]
    exact (hp _ _ hm).symm
  · rfl

theorem canDrop_of_forall (hi : i < xs.size) (h : ∀ y ∈ xs, y < count) : canDrop xs i count = true := by
  rw [canDrop, Bool.and_eq_true, decide_eq_true hi, Option.all_eq_true]
  exact ⟨rfl, fun y hy => decide_eq_true (h y (Graph.mem_of_dropAt (by simpa using hy)))⟩

theorem canInsert_dropAt (hi : i < xs.size) (h : ∀ y ∈ xs, y < count) :
    canInsert (dropAt xs i) i count = true := by
  rw [canInsert, Bool.and_eq_true, size_dropAt hi, Option.all_eq_true]
  exact ⟨decide_eq_true (by omega), fun y hy => decide_eq_true (h y (Graph.mem_of_dropAt (by simpa using hy)))⟩

theorem eq_of_getD {α : Type} {xs ys : Array α} {z : α} (hs : xs.size = ys.size)
    (h : ∀ i, xs.getD i z = ys.getD i z) : xs = ys := by
  refine Array.ext hs fun i hi hj => ?_
  have := h i
  rw [Array.getD_eq_getD_getElem?, Array.getD_eq_getD_getElem?, Array.getElem?_eq_getElem hi,
    Array.getElem?_eq_getElem hj] at this
  exact this

namespace Graph

variable {g g' : Graph} {a : ArcId} {n : NodeId}

/-- A graph is known by what can be looked up in it. -/
theorem eq_of_lookups (hn : g.nodes.size = g'.nodes.size) (ha : g.arcs.size = g'.arcs.size)
    (hl : g.layers.size = g'.layers.size) (node : ∀ n, g.node n = g'.node n) (arc : ∀ a, g.arc a = g'.arc a)
    (layer : ∀ l, g.layer l = g'.layer l) : g = g' := by
  obtain ⟨ns, es, ls⟩ := g
  obtain ⟨ns', es', ls'⟩ := g'
  obtain rfl : ns = ns' := eq_of_getD hn node
  obtain rfl : es = es' := eq_of_getD ha arc
  obtain rfl : ls = ls' := eq_of_getD hl layer
  rfl

/-! ### Putting an arc back -/

theorem nodes_hookParent :
    (g.hookParent a).nodes = g.nodes.modify (g.arc a).parent fun n =>
      { n with outgoing := insertAt n.outgoing (g.arc a).outIndex a } := by
  unfold hookParent
  dsimp only
  split <;> rfl

theorem nodes_hookChild :
    (g.hookChild a).nodes = g.nodes.modify (g.arc a).child fun n =>
      { n with incoming := insertAt n.incoming (g.arc a).inIndex a } := by
  unfold hookChild
  dsimp only
  split <;> rfl

theorem layers_hookParent : (g.hookParent a).layers = g.layers := by
  unfold hookParent
  dsimp only
  split <;> rfl

theorem layers_hookChild : (g.hookChild a).layers = g.layers := by
  unfold hookChild
  dsimp only
  split <;> rfl

theorem arcs_size_hookParent : (g.hookParent a).arcs.size = g.arcs.size := by
  unfold hookParent
  dsimp only
  split <;> simp

theorem arcs_size_hookChild : (g.hookChild a).arcs.size = g.arcs.size := by
  unfold hookChild
  dsimp only
  split <;> simp

theorem node_hookParent (h : (g.arc a).parent < g.nodes.size) (m : NodeId) :
    (g.hookParent a).node m =
      { g.node m with
        outgoing := if m = (g.arc a).parent then insertAt (g.outgoing m) (g.arc a).outIndex a
          else g.outgoing m } := by
  unfold node
  rw [nodes_hookParent, getD_modify _ _ _ _ (Or.inl h)]
  simp only [outgoing, node]
  split_ifs <;> rfl

theorem node_hookChild (h : (g.arc a).child < g.nodes.size) (m : NodeId) :
    (g.hookChild a).node m =
      { g.node m with
        incoming := if m = (g.arc a).child then insertAt (g.incoming m) (g.arc a).inIndex a
          else g.incoming m } := by
  unfold node
  rw [nodes_hookChild, getD_modify _ _ _ _ (Or.inl h)]
  simp only [incoming, node]
  split_ifs <;> rfl

theorem arc_hookParent (h : ∀ b ∈ g.outgoing (g.arc a).parent, b < g.arcs.size) (b : ArcId) :
    (g.hookParent a).arc b =
      { g.arc b with
        outIndex :=
          if (g.outgoing (g.arc a).parent)[(g.arc a).outIndex]? = some b
          then (g.outgoing (g.arc a).parent).size else (g.arc b).outIndex } := by
  unfold hookParent
  dsimp only
  split
  · rename_i displaced hd
    rw [hd]
    unfold arc
    dsimp only
    rw [getD_modify _ _ _ _ (Or.inl (h displaced (Array.mem_of_getElem? hd)))]
    by_cases eb : b = displaced
    · subst eb; simp
    · rw [if_neg eb, if_neg fun c => eb (Option.some.inj c).symm]
  · rename_i hd
    rw [hd]
    simp [arc]

theorem arc_hookChild (h : ∀ b ∈ g.incoming (g.arc a).child, b < g.arcs.size) (b : ArcId) :
    (g.hookChild a).arc b =
      { g.arc b with
        inIndex :=
          if (g.incoming (g.arc a).child)[(g.arc a).inIndex]? = some b
          then (g.incoming (g.arc a).child).size else (g.arc b).inIndex } := by
  unfold hookChild
  dsimp only
  split
  · rename_i displaced hd
    rw [hd]
    unfold arc
    dsimp only
    rw [getD_modify _ _ _ _ (Or.inl (h displaced (Array.mem_of_getElem? hd)))]
    by_cases eb : b = displaced
    · subst eb; simp
    · rw [if_neg eb, if_neg fun c => eb (Option.some.inj c).symm]
  · rename_i hd
    rw [hd]
    simp [arc]

theorem layers_attach : (g.attach a).layers = g.layers := by
  unfold attach
  dsimp only
  rw [layers_hookChild, layers_hookParent]

theorem size_attach : (g.attach a).nodes.size = g.nodes.size := by
  unfold attach
  simp [nodes_hookChild, nodes_hookParent]

theorem arcs_size_attach : (g.attach a).arcs.size = g.arcs.size := by
  unfold attach
  simp [arcs_size_hookChild, arcs_size_hookParent]

/-- The endpoints of `a` are nodes of the graph, and it has a slot itself. -/
structure Ended (g : Graph) (a : ArcId) : Prop where
  slot : a < g.arcs.size
  parent : (g.arc a).parent < g.nodes.size
  child : (g.arc a).child < g.nodes.size

theorem node_attach (h : Listed g a) (he : Ended g a) (m : NodeId) :
    (g.attach a).node m =
      { g.node m with
        outgoing := if m = (g.arc a).parent then insertAt (g.outgoing m) (g.arc a).outIndex a
          else g.outgoing m
        incoming := if m = (g.arc a).child then insertAt (g.incoming m) (g.arc a).inIndex a
          else g.incoming m } := by
  have e : (g.attach a).node m = ((g.hookParent a).hookChild a).node m := by
    unfold attach
    generalize (g.hookParent a).hookChild a = g'
    rfl
  have hp := arc_hookParent h.outgoing
  rw [e, node_hookChild (by rw [hp, nodes_hookParent, Array.size_modify]; exact he.child), hp]
  simp only [incoming, node_hookParent he.parent]

/-- Arc `b` after arc `a` was put back: what stood in its place moved to the end of each list. -/
theorem arc_attach (h : Listed g a) (he : Ended g a) (b : ArcId) :
    (g.attach a).arc b =
      { g.arc b with
        active := if b = a then true else (g.arc b).active
        outIndex :=
          if (g.outgoing (g.arc a).parent)[(g.arc a).outIndex]? = some b
          then (g.outgoing (g.arc a).parent).size else (g.arc b).outIndex
        inIndex :=
          if (g.incoming (g.arc a).child)[(g.arc a).inIndex]? = some b
          then (g.incoming (g.arc a).child).size else (g.arc b).inIndex } := by
  have hp := arc_hookParent h.outgoing
  have hin : (g.hookParent a).incoming (g.arc a).child = g.incoming (g.arc a).child := by
    simp only [incoming, node_hookParent he.parent]
  have hc := arc_hookChild (g := g.hookParent a) (a := a) (by
    simp only [hp, hin, arcs_size_hookParent]
    exact h.incoming)
  have hd : (g.attach a).arc b =
      if b = a then { ((g.hookParent a).hookChild a).arc b with active := true }
      else ((g.hookParent a).hookChild a).arc b := by
    unfold attach
    have hs : a < ((g.hookParent a).hookChild a).arcs.size := by
      rw [arcs_size_hookChild, arcs_size_hookParent]
      exact he.slot
    generalize (g.hookParent a).hookChild a = g' at hs ⊢
    exact getD_modify _ _ _ _ (Or.inl hs)
  rw [hd, hc]
  simp only [hp, hin]
  by_cases e : b = a <;> simp [e]

/-- The arc itself keeps the places it had. -/
theorem Wf.arc_detach_self (h : Wf g) (ha : g.arcIsActive a = true) :
    (g.detach a).arc a = { g.arc a with active := false } := by
  rw [arc_detach (h.listed a), if_pos rfl, if_neg, if_neg]
  · exact (h.incoming_places _).dropAt_ne ⟨ha, rfl⟩ _
  · exact (h.outgoing_places _).dropAt_ne ⟨ha, rfl⟩ _

/-- Putting an arc back between its endpoints. -/
theorem Wf.attach_detach (h : Wf g) (ha : g.arcIsActive a = true) : (g.detach a).attach a = g := by
  have hl := h.listed a
  have hout := h.out_of_arc a ha
  have hin := h.in_of_arc a ha
  have pout : ∀ j b, (g.outgoing (g.arc a).parent)[j]? = some b → (g.arc b).outIndex = j :=
    fun j b hb => (h.arc_of_out _ j b hb).2.2
  have pin : ∀ j b, (g.incoming (g.arc a).child)[j]? = some b → (g.arc b).inIndex = j :=
    fun j b hb => (h.arc_of_in _ j b hb).2.2
  have hself := h.arc_detach_self ha
  have hl' := (h.detach ha).listed a
  have he' : Ended (g.detach a) a :=
    { slot := by rw [arcs_size_detach]; exact lt_of_arcIsActive g ha
      parent := by rw [parent_detach hl, size_detach]; exact h.parent_lt ha
      child := by rw [child_detach hl, size_detach]; exact h.child_lt ha }
  refine eq_of_lookups (by rw [size_attach, size_detach]) (by rw [arcs_size_attach, arcs_size_detach])
    (by rw [layers_attach, layers_detach]) (fun m => ?_) (fun b => ?_) fun k => ?_
  · rw [node_attach hl' he', hself]
    simp only [outgoing_detach hl, incoming_detach hl, node_detach hl]
    rw [restored_list fun e => e ▸ hout, restored_list fun e => e ▸ hin]
    rfl
  · rw [arc_attach hl' he', hself]
    simp only [outgoing_detach hl, incoming_detach hl, if_true, arc_detach hl]
    rw [restored_place hout pout, restored_place hin pin]
    have hact : (if b = a then true else if b = a then false else (g.arc b).active) = (g.arc b).active := by
      split_ifs with e
      · exact (e ▸ ha : g.arcIsActive b = true).symm
      · rfl
    rw [hact]
  · unfold layer
    rw [layers_attach, layers_detach]

/-! ### Putting a node back -/

theorem arcs_restore : (g.restore n).arcs = g.arcs := by
  unfold restore
  dsimp only
  split <;> rfl

theorem layers_restore :
    (g.restore n).layers = g.layers.modify (g.layerOf n) (insertAt · (g.node n).position n) := by
  unfold restore
  dsimp only
  split <;> rfl

theorem layer_restore (hl : g.layerOf n < g.layers.size) (k : Nat) :
    (g.restore n).layer k =
      if k = g.layerOf n then insertAt (g.layer k) (g.node n).position n else g.layer k := by
  unfold layer
  rw [layers_restore]
  exact getD_modify _ _ _ _ (Or.inl hl)

theorem size_restore : (g.restore n).nodes.size = g.nodes.size := by
  unfold restore
  dsimp only
  split <;> simp

/-- Node `m` after node `n` was put back: what stood in its place moved to the end of the layer. -/
theorem node_restore (hn : n < g.nodes.size) (h : ∀ m ∈ g.layer (g.layerOf n), m < g.nodes.size) (m : NodeId) :
    (g.restore n).node m =
      { g.node m with
        active := if m = n then true else (g.node m).active
        position :=
          if (g.layer (g.layerOf n))[(g.node n).position]? = some m
          then (g.layer (g.layerOf n)).size else (g.node m).position } := by
  unfold restore
  dsimp only
  split
  · rename_i displaced hd
    rw [hd]
    unfold node
    dsimp only
    rw [getD_modify _ _ _ _ (Or.inl (by rwa [Array.size_modify])),
      getD_modify _ _ _ _ (Or.inl (h displaced (Array.mem_of_getElem? hd)))]
    by_cases em : m = displaced
    · subst em; by_cases en : m = n <;> simp [en]
    · rw [if_neg em, if_neg fun c => em (Option.some.inj c).symm]
      by_cases en : m = n <;> simp [en]
  · rename_i hd
    rw [hd]
    unfold node
    dsimp only
    rw [getD_modify _ _ _ _ (Or.inl hn)]
    by_cases en : m = n <;> simp [en]

/-- The node itself keeps the position it had. -/
theorem Wf.node_withdraw_self (h : Wf g) (hn : g.isActive n = true) :
    (g.withdraw n).node n = { g.node n with active := false } := by
  rw [node_withdraw fun m hm => h.lt_of_mem_layer hm, if_pos rfl, if_neg]
  exact (h.layer_places _).dropAt_ne ⟨hn, rfl⟩ _

/-- Putting a node back into its layer. -/
theorem Wf.restore_withdraw (h : Wf g) (hn : g.isActive n = true) : (g.withdraw n).restore n = g := by
  have hmem : ∀ m ∈ g.layer (g.layerOf n), m < g.nodes.size := fun m hm => h.lt_of_mem_layer hm
  have hlt := lt_of_isActive g hn
  have hpos := h.layer_of_node n hn
  have places : ∀ j m, (g.layer (g.layerOf n))[j]? = some m → (g.node m).position = j :=
    fun j m hm => (h.node_of_layer _ j m hm).2.2
  have hself := h.node_withdraw_self hn
  have hlayer : (g.withdraw n).layerOf n = g.layerOf n := by rw [layerOf, hself]; rfl
  have hposition : ((g.withdraw n).node n).position = (g.node n).position := by rw [hself]
  refine eq_of_lookups (by rw [size_restore, size_withdraw]) (by rw [arcs_restore, arcs_withdraw])
    (by rw [layers_restore, Array.size_modify, layers_size_withdraw]) (fun m => ?_) (fun a => ?_) fun k => ?_
  · rw [node_restore (by rwa [size_withdraw]), hlayer, hposition, layer_withdraw, if_pos rfl, node_withdraw hmem]
    · dsimp only
      rw [restored_place hpos places]
      have hact : (if m = n then true else if m = n then false else (g.node m).active) = (g.node m).active := by
        split_ifs with e
        · exact (e ▸ hn : g.isActive m = true).symm
        · rfl
      rw [hact]
    · rw [hlayer, layer_withdraw, if_pos rfl, size_withdraw]
      intro m hm
      obtain ⟨j, hj⟩ := Array.mem_iff_getElem?.1 hm
      exact hmem m (mem_of_dropAt hj)
  · unfold arc
    rw [arcs_restore, arcs_withdraw]
  · rw [layer_restore (by rw [hlayer, layers_size_withdraw]; exact h.layer_lt n hlt), hlayer, hposition,
      layer_withdraw]
    exact restored_list fun e => e ▸ hpos

/-- Putting the former state back. -/
theorem putState_putState (side : Side) (s : State) : (g.putState n side s).putState n side (g.state n side) = g := by
  have hnodes : ((g.putState n side s).putState n side (g.state n side)).nodes = g.nodes := by
    refine Array.ext_getElem? fun m => ?_
    simp only [putState, Array.getElem?_modify]
    split_ifs with e
    · subst e
      cases hn : g.nodes[n]? with
      | none => rfl
      | some node =>
        have hnode : g.node n = node := by rw [Graph.node, Array.getD_eq_getD_getElem?, hn, Option.getD_some]
        rw [Option.map_some, Option.map_some, state, hnode]
        cases side <;> rfl
    · rfl
  exact congrArg (fun nodes => { g with nodes }) hnodes

end Graph
end DecisionDiagrams
