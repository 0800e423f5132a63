import DecisionDiagrams.Proofs.Graph.Reversal
import Mathlib.Data.Nat.Basic
import Mathlib.Order.Basic

/-! A graph with free slots behind its nodes and arcs. Nothing of the graph leads to such a slot, so each change
does the same to the graph with the free slots as without them. -/

namespace DecisionDiagrams

/-- Changing an entry which is not one of the added ones. -/
theorem modify_append_left {α : Type} {xs ys : Array α} {i : Nat} (hi : i < xs.size) (f : α → α) :
    (xs ++ ys).modify i f = xs.modify i f ++ ys := by
  refine Array.ext_getElem? fun j => ?_
  simp only [Array.getElem?_modify, Array.getElem?_append, Array.size_modify]
  split_ifs <;> first | rfl | omega

theorem modify_append_right {α : Type} {xs : Array α} {rest : List α} {i : Nat} (hi : xs.size ≤ i)
    (f : α → α) :
    (xs ++ rest.toArray).modify i f = xs ++ (rest.modify (i - xs.size) f).toArray := by
  refine Array.ext_getElem? fun j => ?_
  have hadded (k : Nat) :
      (rest.modify (i - xs.size) f)[k]? = if i - xs.size = k then rest[k]?.map f else rest[k]? := by
    rw [List.getElem?_modify]
    split_ifs <;> simp
  simp only [Array.getElem?_modify, Array.getElem?_append, List.getElem?_toArray, hadded]
  split_ifs <;> first | rfl | omega

/-- What is put into a slot stands right behind the entries in use. -/
theorem occupy_append {α : Type} (xs : Array α) (rest : List α) (x : α) :
    occupy (xs ++ rest.toArray) (List.range' xs.size rest.length) x =
      some (xs.size, xs.push x ++ rest.tail.toArray, List.range' (xs.size + 1) rest.tail.length) := by
  cases rest with
  | nil => simp [occupy]
  | cons y rest =>
    have hset : (xs ++ (y :: rest).toArray).setIfInBounds xs.size x = xs.push x ++ rest.toArray := by
      refine Array.toList_inj.1 ?_
      simp
    rw [List.length_cons, List.range'_succ, occupy, if_pos (by simp), hset]
    rfl

/-- The last entry becomes the first one of the added ones. -/
theorem modify_push_append {α : Type} (xs : Array α) (rest : List α) (x : α) (f : α → α) :
    (xs.push x ++ rest.toArray).modify xs.size f = xs ++ (f x :: rest).toArray := by
  have hpush : xs.push x ++ rest.toArray = xs ++ (x :: rest).toArray := by simp
  rw [hpush, modify_append_right (Nat.le_refl _), Nat.sub_self]
  rfl

theorem modify_push_pop {α : Type} (xs : Array (Array α)) (i : Nat) (x : α) :
    (xs.modify i (·.push x)).modify i Array.pop = xs := by
  refine Array.ext_getElem? fun j => ?_
  rw [Array.getElem?_modify, Array.getElem?_modify]
  cases xs[j]? <;> split_ifs <;> simp

theorem forall_mem_modify {α : Type} {xs : List α} {P : α → Prop} {f : α → α} {i : Nat} (h : ∀ x ∈ xs, P x)
    (hf : ∀ x, P x → P (f x)) : ∀ x ∈ xs.modify i f, P x := by
  intro x hx
  obtain ⟨k, hk⟩ := List.mem_iff_getElem?.1 hx
  rw [List.getElem?_modify] at hk
  obtain ⟨y, hy, rfl⟩ := Option.map_eq_some_iff.1 hk
  split_ifs
  · exact hf y (h y (List.mem_of_getElem? hy))
  · exact h y (List.mem_of_getElem? hy)

/-- A node of which nothing is left but its layer and its states. -/
structure Node.Vacant (count : Nat) (n : Node) : Prop where
  inactive : n.active = false
  outgoing : n.outgoing = #[]
  incoming : n.incoming = #[]
  layer_lt : n.layer < count

namespace Graph

variable {g : Graph} {ns : List Node} {es : List Arc} {a b : ArcId} {n m : NodeId} {l : Nat}

/-- The graph with slots behind its nodes and its arcs. -/
def padded (g : Graph) (ns : List Node) (es : List Arc) : Graph :=
  { g with nodes := g.nodes ++ ns.toArray, arcs := g.arcs ++ es.toArray }

/-- Nothing is in the slots. -/
structure Spares (g : Graph) (ns : List Node) (es : List Arc) : Prop where
  nodes : ∀ n ∈ ns, n.Vacant g.layers.size
  arcs : ∀ e ∈ es, e.active = false

@[simp] theorem layers_padded : (g.padded ns es).layers = g.layers := rfl

@[simp] theorem layer_padded : (g.padded ns es).layer l = g.layer l := rfl

theorem size_padded : (g.padded ns es).nodes.size = g.nodes.size + ns.length := by simp [padded]

theorem arcs_size_padded : (g.padded ns es).arcs.size = g.arcs.size + es.length := by simp [padded]

theorem node_padded (hn : n < g.nodes.size) : (g.padded ns es).node n = g.node n := by
  simp only [node, padded, Array.getD_eq_getD_getElem?, Array.getElem?_append, if_pos hn]

theorem arc_padded (ha : a < g.arcs.size) : (g.padded ns es).arc a = g.arc a := by
  simp only [arc, padded, Array.getD_eq_getD_getElem?, Array.getElem?_append, if_pos ha]

theorem node_padded_of_ge (es : List Arc) (hn : g.nodes.size ≤ n) :
    (g.padded ns es).node n = ns.getD (n - g.nodes.size) default := by
  simp only [node, padded, Array.getD_eq_getD_getElem?, Array.getElem?_append, if_neg (Nat.not_lt.2 hn),
    List.getElem?_toArray, List.getD_eq_getElem?_getD]

theorem arc_padded_of_ge (ns : List Node) (ha : g.arcs.size ≤ a) :
    (g.padded ns es).arc a = es.getD (a - g.arcs.size) default := by
  simp only [arc, padded, Array.getD_eq_getD_getElem?, Array.getElem?_append, if_neg (Nat.not_lt.2 ha),
    List.getElem?_toArray, List.getD_eq_getElem?_getD]

/-- What holds of each entry of a list and of the default. -/
theorem getD_of_forall {α : Type} {xs : List α} {P : α → Prop} {z : α} (h : ∀ x ∈ xs, P x) (hz : P z)
    (i : Nat) :
    P (xs.getD i z) := by
  rw [List.getD_eq_getElem?_getD]
  cases hx : xs[i]? with
  | none => exact hz
  | some x => exact h x (List.mem_of_getElem? hx)

namespace Spares

theorem mono {g' : Graph} {ns' : List Node} {es' : List Arc} (h : Spares g ns es)
    (hl : g'.layers.size = g.layers.size) (hn : ∀ n ∈ ns', n ∈ ns) (he : ∀ e ∈ es', e ∈ es) :
    Spares g' ns' es' :=
  ⟨fun n hm => hl ▸ h.nodes n (hn n hm), fun e hm => h.arcs e (he e hm)⟩

theorem of_layers {g' : Graph} (h : Spares g ns es) (hl : g'.layers.size = g.layers.size) : Spares g' ns es :=
  h.mono hl (fun _ hn => hn) fun _ he => he

variable (h : Spares g ns es)
include h

theorem isActive_padded (n : NodeId) : (g.padded ns es).isActive n = g.isActive n := by
  unfold isActive
  rcases Nat.lt_or_ge n g.nodes.size with hn | hn
  · rw [node_padded hn]
  · rw [node_padded_of_ge es hn, node_of_ge g hn]
    exact getD_of_forall (fun n hn => (h.nodes n hn).inactive) rfl _

theorem outgoing_padded (n : NodeId) : (g.padded ns es).outgoing n = g.outgoing n := by
  unfold Graph.outgoing
  rcases Nat.lt_or_ge n g.nodes.size with hn | hn
  · rw [node_padded hn]
  · rw [node_padded_of_ge es hn, node_of_ge g hn]
    exact getD_of_forall (P := fun n : Node => n.outgoing = #[]) (fun n hn => (h.nodes n hn).outgoing) rfl _

theorem incoming_padded (n : NodeId) : (g.padded ns es).incoming n = g.incoming n := by
  unfold Graph.incoming
  rcases Nat.lt_or_ge n g.nodes.size with hn | hn
  · rw [node_padded hn]
  · rw [node_padded_of_ge es hn, node_of_ge g hn]
    exact getD_of_forall (P := fun n : Node => n.incoming = #[]) (fun n hn => (h.nodes n hn).incoming) rfl _

theorem arcIsActive_padded (a : ArcId) : (g.padded ns es).arcIsActive a = g.arcIsActive a := by
  unfold arcIsActive
  rcases Nat.lt_or_ge a g.arcs.size with ha | ha
  · rw [arc_padded ha]
  · rw [arc_padded_of_ge ns ha, arc_of_ge g ha]
    exact getD_of_forall h.arcs rfl _

end Spares

/-- The graph agrees with itself when there are free slots, too. -/
theorem Wf.padded (w : Wf g) (h : Spares g ns es) : Wf (g.padded ns es) := by
  have harc : ∀ a, g.arcIsActive a = true → (g.padded ns es).arc a = g.arc a :=
    fun a ha => arc_padded (lt_of_arcIsActive g ha)
  have hnode : ∀ n, g.isActive n = true → (g.padded ns es).node n = g.node n :=
    fun n hn => node_padded (lt_of_isActive g hn)
  constructor
  · intro a ha
    rw [h.arcIsActive_padded] at ha
    rw [harc a ha, h.outgoing_padded]
    exact w.out_of_arc a ha
  · intro a ha
    rw [h.arcIsActive_padded] at ha
    rw [harc a ha, h.incoming_padded]
    exact w.in_of_arc a ha
  · intro n i a hi
    rw [h.outgoing_padded] at hi
    have := w.arc_of_out n i a hi
    rwa [h.arcIsActive_padded, harc a this.1]
  · intro n i a hi
    rw [h.incoming_padded] at hi
    have := w.arc_of_in n i a hi
    rwa [h.arcIsActive_padded, harc a this.1]
  · intro a ha
    rw [h.arcIsActive_padded] at ha
    rw [harc a ha, layerOf, layerOf, node_padded (w.child_lt ha), node_padded (w.parent_lt ha)]
    exact w.adjacent a ha
  · intro n hn
    rw [h.isActive_padded] at hn
    rw [layerOf, hnode n hn]
    exact w.layer_of_node n hn
  · intro l i n hi
    have := w.node_of_layer l i n hi
    rwa [h.isActive_padded, layerOf, hnode n this.1]
  · intro n hn
    unfold layerOf
    rcases Nat.lt_or_ge n g.nodes.size with hlt | hge
    · rw [node_padded hlt]
      exact w.layer_lt n hlt
    · have hi : n - g.nodes.size < ns.length := by rw [size_padded] at hn; omega
      rw [node_padded_of_ge es hge, List.getD_eq_getElem?_getD, List.getElem?_eq_getElem hi]
      exact (h.nodes _ (List.getElem_mem hi)).layer_lt

/-- Removing an arc does not touch the free slots. -/
theorem Wf.detach_padded (w : Wf g) (h : Spares g ns es) (ha : g.arcIsActive a = true) :
    (g.padded ns es).detach a = (g.detach a).padded ns es := by
  have hl := w.listed a
  have hl' := (w.padded h).listed a
  have hslot := lt_of_arcIsActive g ha
  have hparent := w.parent_lt ha
  have hchild := w.child_lt ha
  refine eq_of_lookups ?_ ?_ (by rw [layers_detach, layers_padded, layers_padded, layers_detach]) (fun m => ?_)
    (fun b => ?_) fun k => ?_
  · rw [size_detach, size_padded, size_padded, size_detach]
  · rw [arcs_size_detach, arcs_size_padded, arcs_size_padded, arcs_size_detach]
  · rw [node_detach hl', arc_padded hslot]
    rcases Nat.lt_or_ge m g.nodes.size with hm | hm
    · rw [node_padded (hm.trans_eq size_detach.symm), node_detach hl, h.outgoing_padded, h.incoming_padded,
        node_padded hm]
    · rw [if_neg (hparent.trans_le hm).ne', if_neg (hchild.trans_le hm).ne',
        node_padded_of_ge (g := g.detach a) es (size_detach.le.trans hm), size_detach, ← node_padded_of_ge es hm]
      rfl
  · rw [arc_detach hl', arc_padded hslot, h.outgoing_padded, h.incoming_padded]
    rcases Nat.lt_or_ge b g.arcs.size with hb | hb
    · rw [arc_padded (hb.trans_eq arcs_size_detach.symm), arc_detach hl, arc_padded hb]
    · have hout : (dropAt (g.outgoing (g.arc a).parent) (g.arc a).outIndex)[(g.arc a).outIndex]? ≠ some b :=
        fun hm => (hl.outgoing b (mem_of_dropAt hm)).not_ge hb
      have hin : (dropAt (g.incoming (g.arc a).child) (g.arc a).inIndex)[(g.arc a).inIndex]? ≠ some b :=
        fun hm => (hl.incoming b (mem_of_dropAt hm)).not_ge hb
      rw [if_neg hout, if_neg hin, if_neg (hslot.trans_le hb).ne',
        arc_padded_of_ge (g := g.detach a) ns (arcs_size_detach.le.trans hb), arcs_size_detach,
        ← arc_padded_of_ge ns hb]
  · rw [layer_detach, layer_padded, layer_padded, layer_detach]

/-- Removing a node does not touch the free slots. -/
theorem Wf.withdraw_padded (w : Wf g) (h : Spares g ns es) (hn : g.isActive n = true) :
    (g.padded ns es).withdraw n = (g.withdraw n).padded ns es := by
  have hlt := lt_of_isActive g hn
  have hmem : ∀ m ∈ g.layer (g.layerOf n), m < g.nodes.size := fun m hm => w.lt_of_mem_layer hm
  have hl : (g.padded ns es).layerOf n = g.layerOf n := by rw [layerOf, node_padded hlt, layerOf]
  have hmem' : ∀ m ∈ (g.padded ns es).layer ((g.padded ns es).layerOf n), m < (g.padded ns es).nodes.size :=
    fun m hm => (w.padded h).lt_of_mem_layer hm
  refine eq_of_lookups ?_ ?_ ?_ (fun m => ?_) (fun b => ?_) fun k => ?_
  · rw [size_withdraw, size_padded, size_padded, size_withdraw]
  · rw [arcs_withdraw, arcs_size_padded, arcs_size_padded, arcs_withdraw]
  · rw [layers_size_withdraw, layers_padded, layers_padded, layers_size_withdraw]
  · rw [node_withdraw hmem', hl, node_padded hlt, layer_padded]
    rcases Nat.lt_or_ge m g.nodes.size with hm | hm
    · rw [node_padded (hm.trans_eq size_withdraw.symm), node_withdraw hmem, node_padded hm]
    · have hout : (dropAt (g.layer (g.layerOf n)) (g.node n).position)[(g.node n).position]? ≠ some m :=
        fun hd => (hmem m (mem_of_dropAt hd)).not_ge hm
      rw [if_neg hout, if_neg (hlt.trans_le hm).ne', node_padded_of_ge (g := g.withdraw n) es (size_withdraw.le.trans hm),
        size_withdraw, ← node_padded_of_ge es hm]
  · unfold arc
    rw [arcs_withdraw, Graph.padded, Graph.padded, arcs_withdraw]
  · rw [layer_withdraw, hl, node_padded hlt, layer_padded, layer_padded, layer_withdraw]

theorem putState_padded (hn : n < g.nodes.size) (side : Side) (s : State) :
    (g.padded ns es).putState n side s = (g.putState n side s).padded ns es := by
  unfold putState padded
  rw [modify_append_left hn]

/-- Replacing a state in a free slot. -/
theorem putState_padded_of_ge (hn : g.nodes.size ≤ n) (side : Side) (s : State) :
    (g.padded ns es).putState n side s =
      g.padded (ns.modify (n - g.nodes.size) fun m => { m with states := m.states.set side s }) es := by
  unfold putState padded
  rw [modify_append_right hn]

theorem putState_of_ge (hn : g.nodes.size ≤ n) (side : Side) (s : State) : g.putState n side s = g := by
  have hnodes : (g.putState n side s).nodes = g.nodes := by
    refine Array.ext_getElem? fun m => ?_
    rw [putState, Array.getElem?_modify]
    split_ifs with e
    · rw [Array.getElem?_eq_none (e ▸ hn)]
      rfl
    · rfl
  exact congrArg (fun nodes => { g with nodes }) hnodes

/-- Taking a node back which was just created leaves its slot free. -/
theorem uncreateNode_appendNode (states : BySide State) :
    ((g.appendNode l states).2.padded ns es).uncreateNode g.nodes.size =
      g.padded ({ (g.appendNode l states).2.node g.nodes.size with active := false } :: ns) es := by
  have hl : ((g.appendNode l states).2.padded ns es).layerOf g.nodes.size = l := by
    rw [layerOf, node_padded (by simp), node_appendNode_self]
  unfold uncreateNode
  rw [hl, node_appendNode_self]
  simp only [padded, appendNode, modify_push_pop, modify_push_append]

theorem modify_hooks (nodes : Array Node) (p c : NodeId) (a : ArcId) :
    ((((nodes.modify p fun n => { n with outgoing := n.outgoing.push a }).modify c
        fun n => { n with incoming := n.incoming.push a }).modify p
        fun n => { n with outgoing := n.outgoing.pop }).modify c
        fun n => { n with incoming := n.incoming.pop }) = nodes := by
  refine Array.ext_getElem? fun m => ?_
  simp only [Array.getElem?_modify]
  cases nodes[m]? <;> split_ifs <;> simp

/-- Taking an arc back which was just created leaves its slot free. -/
theorem uncreateArc_connect {p c : NodeId} (hp : p < g.nodes.size) (hc : c < g.nodes.size) (v : Int) :
    ((g.connect p c v).padded ns es).uncreateArc g.arcs.size =
      g.padded ns ({ (g.connect p c v).arc g.arcs.size with active := false } :: es) := by
  have harc : ((g.connect p c v).padded ns es).arc g.arcs.size = (g.connect p c v).arc g.arcs.size :=
    arc_padded (by simp)
  unfold uncreateArc
  rw [harc, arc_connect_self]
  simp only [padded, connect, modify_push_append]
  rw [modify_append_left (by simpa using hp), modify_append_left (by simpa using hc)]
  have hnodes := modify_hooks g.nodes p c g.arcs.size
  simp only [hnodes]

end Graph
end DecisionDiagrams
