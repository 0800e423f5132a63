import DecisionDiagrams.Proofs.Graph.Operations

/-! The graph always agrees with itself: an arc is where its places say among the arcs of its
endpoints, a node where its position says in its layer, and the lists hold nothing else. A removed
node may keep arcs for a while, because they are taken out one by one. -/

namespace DecisionDiagrams.Graph

/-- The list holds the entries of `mine`, each at the place which is recorded for it. -/
structure Places (xs : Array Nat) (place : Nat → Nat) (mine : Nat → Prop) : Prop where
  there : ∀ b, mine b → xs[place b]? = some b
  only : ∀ i b, xs[i]? = some b → mine b ∧ place b = i

namespace Places

variable {xs : Array Nat} {place place' : Nat → Nat} {mine mine' : Nat → Prop} {a b : Nat}

theorem mem_iff (h : Places xs place mine) : b ∈ xs ↔ mine b := by
  constructor
  · intro hb
    obtain ⟨i, hi⟩ := Array.mem_iff_getElem?.1 hb
    exact (h.only i b hi).1
  · exact fun hb => Array.mem_of_getElem? (h.there b hb)

theorem nodup (h : Places xs place mine) : xs.toList.Nodup := by
  rw [List.nodup_iff_pairwise_ne, List.pairwise_iff_getElem]
  intro i j hi hj hij e
  simp only [Array.length_toList] at hi hj
  have h1 := h.only i _ (Array.getElem?_eq_getElem hi)
  have h2 := h.only j _ (Array.getElem?_eq_getElem hj)
  simp only [Array.getElem_toList] at e
  rw [e] at h1
  omega

theorem congr (h : Places xs place mine) (hm : ∀ b, mine' b ↔ mine b) (hp : ∀ b, mine b → place' b = place b) :
    Places xs place' mine' where
  there b hb := by
    have hb := (hm b).1 hb
    rw [hp b hb]
    exact h.there b hb
  only i b hb := by
    obtain ⟨hb, hi⟩ := h.only i b hb
    exact ⟨(hm b).2 hb, (hp b hb).trans hi⟩

/-- A new entry comes last. -/
theorem push (h : Places xs place mine) (hm : ∀ b, mine' b ↔ mine b ∨ b = a) (hp : ∀ b, mine b → place' b = place b)
    (new : place' a = xs.size) : Places (xs.push a) place' mine' where
  there b hb := by
    rcases (hm b).1 hb with hb | rfl
    · obtain ⟨hlt, -⟩ := Array.getElem?_eq_some_iff.1 (h.there b hb)
      rw [hp b hb, Array.getElem?_push, if_neg (Nat.ne_of_lt hlt), h.there b hb]
    · rw [new, Array.getElem?_push, if_pos rfl]
  only i b hb := by
    rw [Array.getElem?_push] at hb
    split_ifs at hb with hi
    · obtain rfl := Option.some.inj hb
      exact ⟨(hm a).2 (Or.inr rfl), new.trans hi.symm⟩
    · obtain ⟨hb, hi⟩ := h.only i b hb
      exact ⟨(hm b).2 (Or.inl hb), (hp b hb).trans hi⟩

/-- After `dropAt` the entry `a` is gone, and the entry which was moved to its place is recorded there. -/
theorem dropAt_iff (h : Places xs place mine) (ha : mine a) (j b : Nat) :
    (dropAt xs (place a))[j]? = some b ↔
      b ≠ a ∧ mine b ∧ j = if (dropAt xs (place a))[place a]? = some b then place a else place b := by
  have hi := h.there a ha
  obtain ⟨hlt, -⟩ := Array.getElem?_eq_some_iff.1 hi
  rw [getElem?_dropAt hlt, getElem?_dropAt hlt]
  constructor
  · intro hj
    split_ifs at hj with h1 h2
    · subst h2
      obtain ⟨hb, hpb⟩ := h.only _ _ hj
      exact ⟨by rintro rfl; omega, hb, by simp [h1, hj]⟩
    · obtain ⟨hb, hpb⟩ := h.only _ _ hj
      refine ⟨by rintro rfl; omega, hb, ?_⟩
      have hl : xs[xs.size - 1]? ≠ some b := fun e => by have := (h.only _ _ e).2; omega
      simp [hl, hpb]
  · rintro ⟨hne, hb, rfl⟩
    have hb := h.there b hb
    obtain ⟨hblt, -⟩ := Array.getElem?_eq_some_iff.1 hb
    have hbi : place b ≠ place a := fun e => hne (by rw [e, hi] at hb; exact (Option.some.inj hb).symm)
    have hlast : place b ≠ xs.size - 1 ∨ xs[xs.size - 1]? = some b := by
      by_cases e : place b = xs.size - 1
      · exact Or.inr (e ▸ hb)
      · exact Or.inl e
    by_cases hc : place a < xs.size - 1
    · by_cases hbl : xs[xs.size - 1]? = some b
      · simp [hc, hbl]
      · have hlt' : place b < xs.size - 1 := by have := hlast.resolve_right hbl; omega
        simp [hc, hbl, hlt', hbi, hb]
    · have hlt' : place b < xs.size - 1 := by omega
      simp [hc, hlt', hbi, hb]

theorem dropAt_ne (h : Places xs place mine) (ha : mine a) (j : Nat) :
    (dropAt xs (place a))[j]? ≠ some a := fun hj => ((h.dropAt_iff ha j a).1 hj).1 rfl

/-- The last entry moves to the place of an entry which is removed. -/
theorem removed (h : Places xs place mine) (ha : mine a) (hm : ∀ b, mine' b ↔ b ≠ a ∧ mine b) (hp : ∀ b, mine b →
    place' b = if (dropAt xs (place a))[place a]? = some b then place a else place b) :
    Places (dropAt xs (place a)) place' mine' where
  there b hb := by
    obtain ⟨hne, hb⟩ := (hm b).1 hb
    exact (h.dropAt_iff ha _ _).2 ⟨hne, hb, hp b hb⟩
  only i b hb := by
    obtain ⟨hne, hb, hi⟩ := (h.dropAt_iff ha _ _).1 hb
    exact ⟨(hm b).2 ⟨hne, hb⟩, (hp b hb).trans hi.symm⟩

/-- An entry of another list is not moved. -/
theorem kept (h : Places xs place mine) (i c : Nat) (hb : ¬ mine b) :
    (if (dropAt xs i)[i]? = some b then i else c) = c :=
  if_neg fun hm => hb (h.mem_iff.1 (mem_of_dropAt hm))

end Places

structure Wf (g : Graph) : Prop where
  out_of_arc : ∀ a, g.arcIsActive a = true →
    (g.outgoing (g.arc a).parent)[(g.arc a).outIndex]? = some a
  in_of_arc : ∀ a, g.arcIsActive a = true →
    (g.incoming (g.arc a).child)[(g.arc a).inIndex]? = some a
  arc_of_out : ∀ n i a, (g.outgoing n)[i]? = some a →
    g.arcIsActive a = true ∧ (g.arc a).parent = n ∧ (g.arc a).outIndex = i
  arc_of_in : ∀ n i a, (g.incoming n)[i]? = some a →
    g.arcIsActive a = true ∧ (g.arc a).child = n ∧ (g.arc a).inIndex = i
  adjacent : ∀ a, g.arcIsActive a = true →
    g.layerOf (g.arc a).child = g.layerOf (g.arc a).parent + 1
  layer_of_node : ∀ n, g.isActive n = true →
    (g.layer (g.layerOf n))[(g.node n).position]? = some n
  node_of_layer : ∀ l i n, (g.layer l)[i]? = some n →
    g.isActive n = true ∧ g.layerOf n = l ∧ (g.node n).position = i
  layer_lt : ∀ n < g.nodes.size, g.layerOf n < g.layers.size

theorem layer_withLayers (count l : Nat) : (withLayers count).layer l = #[] := by
  simp only [layer, withLayers, Array.getD_eq_getD_getElem?, Array.getElem?_replicate]
  split_ifs <;> rfl

theorem wf_withLayers (count : Nat) : Wf (withLayers count) := by
  have hl := layer_withLayers count
  refine ⟨?_, ?_, ?_, ?_, ?_, ?_, ?_, ?_⟩ <;> intros <;> simp_all [arcIsActive, arc, isActive, node,
    withLayers, outgoing, incoming] <;> contradiction

namespace Wf

variable {g : Graph}

theorem outgoing_places (h : Wf g) (n : NodeId) : Places (g.outgoing n) (fun a => (g.arc a).outIndex)
    fun a => g.arcIsActive a = true ∧ (g.arc a).parent = n where
  there a ha := ha.2 ▸ h.out_of_arc a ha.1
  only i a ha := and_assoc.2 (h.arc_of_out n i a ha)

theorem incoming_places (h : Wf g) (n : NodeId) : Places (g.incoming n) (fun a => (g.arc a).inIndex)
    fun a => g.arcIsActive a = true ∧ (g.arc a).child = n where
  there a ha := ha.2 ▸ h.in_of_arc a ha.1
  only i a ha := and_assoc.2 (h.arc_of_in n i a ha)

theorem layer_places (h : Wf g) (l : Nat) : Places (g.layer l) (fun n => (g.node n).position)
    fun n => g.isActive n = true ∧ g.layerOf n = l where
  there n hn := hn.2 ▸ h.layer_of_node n hn.1
  only i n hn := and_assoc.2 (h.node_of_layer l i n hn)

theorem of_places (out : ∀ n, Places (g.outgoing n) (fun a => (g.arc a).outIndex)
      fun a => g.arcIsActive a = true ∧ (g.arc a).parent = n)
    (into : ∀ n, Places (g.incoming n) (fun a => (g.arc a).inIndex)
      fun a => g.arcIsActive a = true ∧ (g.arc a).child = n)
    (adjacent : ∀ a, g.arcIsActive a = true → g.layerOf (g.arc a).child = g.layerOf (g.arc a).parent + 1)
    (layers : ∀ l, Places (g.layer l) (fun n => (g.node n).position) fun n => g.isActive n = true ∧ g.layerOf n = l)
    (layer_lt : ∀ n < g.nodes.size, g.layerOf n < g.layers.size) : Wf g where
  out_of_arc a ha := (out _).there a ⟨ha, rfl⟩
  in_of_arc a ha := (into _).there a ⟨ha, rfl⟩
  arc_of_out n i a ha := and_assoc.1 ((out n).only i a ha)
  arc_of_in n i a ha := and_assoc.1 ((into n).only i a ha)
  adjacent := adjacent
  layer_of_node n hn := (layers _).there n ⟨hn, rfl⟩
  node_of_layer l i n hn := and_assoc.1 ((layers l).only i n hn)
  layer_lt := layer_lt

theorem mem_outgoing (h : Wf g) {n : NodeId} {a : ArcId} :
    a ∈ g.outgoing n ↔ g.arcIsActive a = true ∧ (g.arc a).parent = n := (h.outgoing_places n).mem_iff

theorem mem_incoming (h : Wf g) {n : NodeId} {a : ArcId} :
    a ∈ g.incoming n ↔ g.arcIsActive a = true ∧ (g.arc a).child = n := (h.incoming_places n).mem_iff

theorem mem_layer (h : Wf g) {l : Nat} {n : NodeId} :
    n ∈ g.layer l ↔ g.isActive n = true ∧ g.layerOf n = l := (h.layer_places l).mem_iff

theorem listed (h : Wf g) (a : ArcId) : Listed g a where
  outgoing _ hb := lt_of_arcIsActive g (h.mem_outgoing.1 hb).1
  incoming _ hb := lt_of_arcIsActive g (h.mem_incoming.1 hb).1

theorem parent_lt (h : Wf g) {a : ArcId} (ha : g.arcIsActive a = true) :
    (g.arc a).parent < g.nodes.size := by
  by_contra hn
  have := h.out_of_arc a ha
  rw [outgoing, node_of_ge g (Nat.not_lt.1 hn)] at this
  cases this

theorem child_lt (h : Wf g) {a : ArcId} (ha : g.arcIsActive a = true) :
    (g.arc a).child < g.nodes.size := by
  by_contra hn
  have := h.in_of_arc a ha
  rw [incoming, node_of_ge g (Nat.not_lt.1 hn)] at this
  cases this

theorem nodup_outgoing (h : Wf g) (n : NodeId) : (g.outgoing n).toList.Nodup := (h.outgoing_places n).nodup

theorem nodup_incoming (h : Wf g) (n : NodeId) : (g.incoming n).toList.Nodup := (h.incoming_places n).nodup

theorem nodup_layer (h : Wf g) (l : Nat) : (g.layer l).toList.Nodup := (h.layer_places l).nodup

theorem lt_of_mem_layer (h : Wf g) {l : Nat} {n : NodeId} (hn : n ∈ g.layer l) : n < g.nodes.size :=
  lt_of_isActive g (h.mem_layer.1 hn).1

theorem putState (h : Wf g) {n : NodeId} (hn : n < g.nodes.size) (side : Side) (s : State) :
    Wf (g.putState n side s) := by
  have e := node_putState g n side s hn
  refine ⟨?_, ?_, ?_, ?_, ?_, ?_, ?_, ?_⟩
  · simpa only [arcIsActive, arc_putState, outgoing, e] using h.out_of_arc
  · simpa only [arcIsActive, arc_putState, incoming, e] using h.in_of_arc
  · simpa only [arcIsActive, arc_putState, outgoing, e] using h.arc_of_out
  · simpa only [arcIsActive, arc_putState, incoming, e] using h.arc_of_in
  · simpa only [arcIsActive, arc_putState, layerOf, e] using h.adjacent
  · simpa only [isActive, layerOf, layer_putState, e] using h.layer_of_node
  · simpa only [isActive, layerOf, layer_putState, e] using h.node_of_layer
  · simpa only [layerOf, layers_putState, size_putState, e] using h.layer_lt

theorem appendNode (h : Wf g) {l : Nat} (hl : l < g.layers.size) (s : BySide State) :
    Wf (g.appendNode l s).2 := by
  have old : ∀ {n}, g.isActive n = true → (g.appendNode l s).2.node n = g.node n := fun hn =>
    node_appendNode_of_ne g l s (Nat.ne_of_lt (lt_of_isActive g hn))
  have hout : ∀ n, (g.appendNode l s).2.outgoing n = g.outgoing n := by
    intro n
    by_cases e : n = g.nodes.size
    · subst e; simp [outgoing, node_of_ge g (Nat.le_refl _)]; rfl
    · simp [outgoing, node_appendNode_of_ne g l s e]
  have hin : ∀ n, (g.appendNode l s).2.incoming n = g.incoming n := by
    intro n
    by_cases e : n = g.nodes.size
    · subst e; simp [incoming, node_of_ge g (Nat.le_refl _)]; rfl
    · simp [incoming, node_appendNode_of_ne g l s e]
  -- besides the active nodes only the new one is in a layer
  have mine : ∀ k n, (g.appendNode l s).2.isActive n = true ∧ (g.appendNode l s).2.layerOf n = k ↔
      (g.isActive n = true ∧ g.layerOf n = k) ∨ n = g.nodes.size ∧ k = l := by
    intro k n
    by_cases e : n = g.nodes.size
    · subst e
      have off : ¬ (g.node g.nodes.size).active = true := fun h => Nat.lt_irrefl _ (lt_of_isActive g h)
      simp [off, isActive, layerOf, eq_comm (a := k)]
    · simp [isActive, layerOf, node_appendNode_of_ne g l s e, e]
  refine of_places (fun n => hout n ▸ h.outgoing_places n) (fun n => hin n ▸ h.incoming_places n) (fun a ha => ?_)
    (fun k => ?_) fun n hn => ?_
  · have hp := Nat.ne_of_lt (h.parent_lt ha)
    have hc := Nat.ne_of_lt (h.child_lt ha)
    simp only [arc_appendNode, layerOf, node_appendNode_of_ne g l s hp,
      node_appendNode_of_ne g l s hc]
    exact h.adjacent a ha
  · rw [layer_appendNode g l s _ hl]
    split_ifs with e
    · subst e
      exact (h.layer_places k).push (fun n => by rw [mine]; simp) (fun n hn => by rw [old hn.1]) (by simp [width])
    · exact (h.layer_places k).congr (fun n => by rw [mine]; simp [e]) fun n hn => by rw [old hn.1]
  · rw [layers_size_appendNode]
    by_cases e : n = g.nodes.size
    · subst e
      simpa [layerOf] using hl
    · rw [size_appendNode] at hn
      simp only [layerOf, node_appendNode_of_ne g l s e]
      exact h.layer_lt n (by omega)

theorem connect (h : Wf g) {p c : NodeId} (hp : p < g.nodes.size) (hc : c < g.nodes.size)
    (hl : g.layerOf c = g.layerOf p + 1) (v : Int) : Wf (g.connect p c v) := by
  have en := node_connect g p c v hp hc
  have hact : ∀ a, (g.connect p c v).arcIsActive a = true ↔
      a = g.arcs.size ∨ g.arcIsActive a = true := by
    intro a
    by_cases e : a = g.arcs.size
    · subst e; simp [arcIsActive]
    · simp [arcIsActive, arc_connect_of_ne g p c v e, e]
  -- besides the arcs with an end `q`, the new one has it if it is its own
  have mine : ∀ (f : Arc → NodeId) (a q : Nat),
      (g.connect p c v).arcIsActive a = true ∧ f ((g.connect p c v).arc a) = q ↔
        (g.arcIsActive a = true ∧ f (g.arc a) = q) ∨ a = g.arcs.size ∧ f ((g.connect p c v).arc g.arcs.size) = q := by
    intro f a q
    rw [hact]
    by_cases e : a = g.arcs.size
    · subst e
      have off : ¬ g.arcIsActive g.arcs.size = true := fun h => Nat.lt_irrefl _ (lt_of_arcIsActive g h)
      simp [off]
    · simp [e, arc_connect_of_ne g p c v e]
  refine of_places (fun n => ?_) (fun n => ?_) (fun a ha => ?_) (fun l => ?_) ?_
  · have old : ∀ a, g.arcIsActive a = true ∧ (g.arc a).parent = n → _ := fun a ha =>
      congrArg Arc.outIndex (arc_connect_of_active g p c v ha.1)
    simp only [outgoing, en]
    split_ifs with e
    · subst e
      exact (h.outgoing_places n).push (fun a => by rw [mine]; simp) old (by simp)
    · exact (h.outgoing_places n).congr (fun a => by rw [mine]; simp [Ne.symm e]) old
  · have old : ∀ a, g.arcIsActive a = true ∧ (g.arc a).child = n → _ := fun a ha =>
      congrArg Arc.inIndex (arc_connect_of_active g p c v ha.1)
    simp only [incoming, en]
    split_ifs with e
    · subst e
      exact (h.incoming_places n).push (fun a => by rw [mine]; simp) old (by simp)
    · exact (h.incoming_places n).congr (fun a => by rw [mine]; simp [Ne.symm e]) old
  · simp only [layerOf, en]
    rcases (hact a).1 ha with rfl | ha
    · simpa [layerOf] using hl
    · rw [arc_connect_of_active g p c v ha]
      exact h.adjacent a ha
  · simpa only [isActive, layerOf, en, layer_connect] using h.layer_places l
  · simpa only [layerOf, en, layers_connect, size_connect] using h.layer_lt

theorem detach (h : Wf g) {a : ArcId} (ha : g.arcIsActive a = true) : Wf (g.detach a) := by
  have hl := h.listed a
  have hact := arcIsActive_detach hl
  refine of_places (fun n => ?_) (fun n => ?_) (fun b hb => ?_) (fun l => ?_) ?_
  · rw [outgoing_detach hl]
    split_ifs with e
    · subst e
      refine (h.outgoing_places _).removed ⟨ha, rfl⟩ (fun b => ?_) fun b _ => by rw [arc_detach hl]
      rw [hact, parent_detach hl, and_assoc]
    · refine (h.outgoing_places n).congr (fun b => ?_) fun b hb => ?_
      · rw [hact, parent_detach hl]
        exact ⟨fun hb => ⟨hb.1.2, hb.2⟩, fun hb => ⟨⟨by rintro rfl; exact e hb.2.symm, hb.1⟩, hb.2⟩⟩
      · rw [arc_detach hl]
        exact (h.outgoing_places _).kept _ _ fun k => e (hb.2.symm.trans k.2)
  · rw [incoming_detach hl]
    split_ifs with e
    · subst e
      refine (h.incoming_places _).removed ⟨ha, rfl⟩ (fun b => ?_) fun b _ => by rw [arc_detach hl]
      rw [hact, child_detach hl, and_assoc]
    · refine (h.incoming_places n).congr (fun b => ?_) fun b hb => ?_
      · rw [hact, child_detach hl]
        exact ⟨fun hb => ⟨hb.1.2, hb.2⟩, fun hb => ⟨⟨by rintro rfl; exact e hb.2.symm, hb.1⟩, hb.2⟩⟩
      · rw [arc_detach hl]
        exact (h.incoming_places _).kept _ _ fun k => e (hb.2.symm.trans k.2)
  · simp only [layerOf_detach hl, child_detach hl, parent_detach hl]
    exact h.adjacent b ((hact b).1 hb).2
  · rw [layer_detach]
    refine (h.layer_places l).congr (fun n => ?_) fun n _ => ?_
    · rw [isActive_detach hl, layerOf_detach hl]
    · rw [node_detach hl]
  · simpa only [layerOf_detach hl, layers_detach, size_detach] using h.layer_lt

theorem withdraw (h : Wf g) {n : NodeId} (hn : g.isActive n = true) : Wf (g.withdraw n) := by
  have en := node_withdraw (g := g) (n := n) fun m hm => h.lt_of_mem_layer hm
  have hlay : ∀ m, (g.withdraw n).layerOf m = g.layerOf m := fun m => by simp only [layerOf, en]
  have hact : ∀ m, (g.withdraw n).isActive m = true ↔ m ≠ n ∧ g.isActive m = true := by
    intro m
    unfold isActive
    rw [en]
    by_cases e : m = n <;> simp [e]
  refine of_places (fun m => ?_) (fun m => ?_) ?_ (fun l => ?_) ?_
  · simpa only [arcIsActive, outgoing, arc_withdraw, en] using h.outgoing_places m
  · simpa only [arcIsActive, incoming, arc_withdraw, en] using h.incoming_places m
  · simpa only [arcIsActive, layerOf, arc_withdraw, en] using h.adjacent
  · rw [layer_withdraw]
    split_ifs with e
    · subst e
      refine (h.layer_places _).removed ⟨hn, rfl⟩ (fun m => ?_) fun m _ => by rw [en]
      rw [hact, hlay, and_assoc]
    · refine (h.layer_places l).congr (fun m => ?_) fun m hm => ?_
      · rw [hact, hlay]
        exact ⟨fun hm => ⟨hm.1.2, hm.2⟩, fun hm => ⟨⟨by rintro rfl; exact e hm.2.symm, hm.1⟩, hm.2⟩⟩
      · rw [en]
        exact (h.layer_places _).kept _ _ fun k => e (hm.2.symm.trans k.2)
  · simpa only [layerOf, layers_size_withdraw, size_withdraw, en] using h.layer_lt

end Wf

end DecisionDiagrams.Graph
