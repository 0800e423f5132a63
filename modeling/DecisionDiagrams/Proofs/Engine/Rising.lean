import DecisionDiagrams.Proofs.Engine.Upkeep

/-! A node whose children have other arcs is deleted. Then only nodes above it may follow. -/

namespace DecisionDiagrams

open Work Cascade

variable {p : Plan} {w : Workspace}

/-- An arc from the layer above `layer` or below which does not touch a node. -/
def Spared (w : Workspace) (layer : Nat) (new : NodeId) (a : ArcId) : Prop :=
  w.graph.arcIsActive a = true ∧ (w.graph.arc a).parent ≠ new ∧ (w.graph.arc a).child ≠ new ∧
    layer ≤ w.graph.layerOf (w.graph.arc a).child

/-- While a node is deleted, only nodes above its layer follow, after they lost their last outgoing arc. -/
structure Rising (p : Plan) (w : Workspace) (layer : Nat) (new : NodeId) (c : Config) : Prop where
  shrinks : Shrinks w c.2
  off : c.2.graph.isActive new = false
  arcs : ∀ a, Spared w layer new a → c.2.graph.arcIsActive a = true
  nodes : ∀ m, m ≠ new → w.graph.isActive m = true → layer ≤ w.graph.layerOf m →
    c.2.graph.isActive m = true
  drains : ∀ m, Debt.drain m ∈ c.1 → m = new ∨ (w.graph.layerOf m < layer ∧
    ∀ a, c.2.graph.arcIsActive a = true → (w.graph.arc a).parent ≠ m)
  settles : ∀ m, Debt.settle .down m ∈ c.1 → c.2.graph.isActive m = false ∨
    ∃ a, Spared w layer new a ∧ (w.graph.arc a).child = m

/-- Every node from a layer on, except for one which is to be deleted, keeps an outgoing arc. -/
def Anchored (p : Plan) (w : Workspace) (layer : Nat) (new : NodeId) : Prop :=
  ∀ m, m ≠ new → w.graph.isActive m = true → layer ≤ w.graph.layerOf m → w.graph.layerOf m ≠ p.model.depth →
    ∃ a, Spared w layer new a ∧ (w.graph.arc a).parent = m

/-- Every child of a node keeps an arc from another one. -/
def Replaced (w : Workspace) (layer : Nat) (new : NodeId) : Prop :=
  ∀ a, w.graph.arcIsActive a = true → (w.graph.arc a).parent = new →
    ∃ b, Spared w layer new b ∧ (w.graph.arc b).child = (w.graph.arc a).child

namespace Rising

variable {d : Direction} {layer : Nat} {new m : NodeId} {debts debts' : List Debt} {v v' : Workspace} {c c' : Config}

/-- Nothing happens to the graph, and nothing comes to be owed which matters. -/
theorem pass (hr : Rising p w layer new (debts, v)) (hs : Shrinks v v') (hg : v'.graph = v.graph)
    (drains : ∀ m, Debt.drain m ∈ debts' → Debt.drain m ∈ debts)
    (settles : ∀ m, Debt.settle .down m ∈ debts' → Debt.settle .down m ∈ debts) :
    Rising p w layer new (debts', v') := by
  refine ⟨hr.shrinks.trans hs, ?_, ?_, ?_, fun m hm => ?_, fun m hm => ?_⟩
  all_goals simp only [hg]
  · exact hr.off
  · exact hr.arcs
  · exact hr.nodes
  · exact hr.drains m (drains m hm)
  · exact hr.settles m (settles m hm)

/-- A node without arcs on a side has no spared arc there. -/
theorem not_spared (hr : Rising p w layer new (debts, v)) (hw : v.graph.Wf) {e : Direction}
    (bare : (v.arcsOn e m).isEmpty = true) {a : ArcId} (ha : Spared w layer new a) : endOn w.graph e a ≠ m := by
  rintro rfl
  have hmem : a ∈ v.arcsOn e (endOn w.graph e a) := by
    refine (mem_arcsOn hw).2 ⟨hr.arcs a ha, ?_⟩
    cases e
    · exact hr.shrinks.child a
    · exact hr.shrinks.parent a
  exact absurd (Array.isEmpty_eq_false_iff_exists_mem.2 ⟨a, hmem⟩) (by rw [bare]; simp)

/-- A node which follows lies above the layer, and has no outgoing arc any more. -/
theorem above (hr : Rising p w layer new (.settle d m :: debts, v)) (hw : v.graph.Wf) (fed : Anchored p w layer new)
    (on : v.graph.isActive m = true) (bare : (v.arcsOn d m).isEmpty = true)
    (sink : v.graph.layerOf m ≠ p.model.depth) :
    w.graph.layerOf m < layer ∧ ∀ a, v.graph.arcIsActive a = true → (w.graph.arc a).parent ≠ m := by
  cases d with
  | down =>
    rcases hr.settles m List.mem_cons_self with off | ⟨a, ha, hch⟩
    · exact absurd (off.symm.trans on) nofun
    · exact absurd hch (hr.not_spared hw bare ha)
  | up =>
    have hne : m ≠ new := by
      rintro rfl
      exact absurd (hr.off.symm.trans on) nofun
    refine ⟨?_, fun a ha hpar => ?_⟩
    · by_contra hge
      rw [hr.shrinks.layerOf] at sink
      obtain ⟨a, ha, hpar⟩ := fed m hne (hr.shrinks.active m on) (Nat.not_lt.1 hge) sink
      exact hr.not_spared hw bare ha hpar
    · have hmem : a ∈ v.arcsOn .up m := (mem_arcsOn hw).2 ⟨ha, (hr.shrinks.parent a).trans hpar⟩
      exact absurd (Array.isEmpty_eq_false_iff_exists_mem.2 ⟨a, hmem⟩) (by rw [bare]; simp)

theorem retire (hr : Rising p w layer new (.settle d m :: debts, v)) (hw : v.graph.Wf) (fed : Anchored p w layer new)
    (on : v.graph.isActive m = true) (bare : (v.arcsOn d m).isEmpty = true)
    (sink : v.graph.layerOf m ≠ p.model.depth) : Rising p w layer new (.drain m :: debts, v.retire m) := by
  have hact := Workspace.isActive_retire (n := m) hw
  have harc : ∀ a, (v.retire m).graph.arcIsActive a = v.graph.arcIsActive a := fun a => by
    show (v.graph.withdraw m).arcIsActive a = _
    rw [Graph.arcIsActive, Graph.arc_withdraw]
    rfl
  have above := hr.above hw fed on bare sink
  have gone : ∀ {k}, v.graph.isActive k = false → (v.retire m).graph.isActive k = false := fun hoff =>
    Bool.eq_false_iff.2 fun on => absurd ((hact _).1 on).2 (by simp [hoff])
  refine ⟨hr.shrinks.trans (shrinks_retire hw on), gone hr.off, fun a ha => (harc a).trans (hr.arcs a ha),
    fun k hk h1 h2 => (hact k).2 ⟨?_, hr.nodes k hk h1 h2⟩, fun k hk => ?_, fun k hk => ?_⟩
  · rintro rfl
    exact absurd above.1 (Nat.not_lt.2 h2)
  · simp only [harc]
    rcases List.mem_cons.1 hk with e | hk
    · obtain rfl := Debt.drain.inj e
      exact Or.inr above
    · exact hr.drains k (List.mem_cons_of_mem _ hk)
  · exact (hr.settles k (List.mem_cons_of_mem _ (List.mem_of_ne_of_mem (by simp) hk))).imp_left gone

theorem unhook (hr : Rising p w layer new (.drain m :: debts, v)) (hw : v.graph.Wf) (below : Replaced w layer new)
    {a : ArcId} (off : v.graph.isActive m = false) (on : v.graph.arcIsActive a = true)
    (ends : (v.graph.arc a).parent = m ∨ (v.graph.arc a).child = m) :
    Rising p w layer new (owed v a (.drain m :: debts), v.unhook a) := by
  have hact : ∀ b, (v.unhook a).graph.arcIsActive b = true ↔ b ≠ a ∧ v.graph.arcIsActive b = true :=
    Graph.arcIsActive_detach (hw.listed a)
  have hnode : ∀ k, (v.unhook a).graph.isActive k = v.graph.isActive k := Workspace.isActive_unhook hw a
  rw [hr.shrinks.parent, hr.shrinks.child] at ends
  -- the arc belongs to the node which is deleted or lies above it
  have ends : (w.graph.arc a).parent = new ∨ (w.graph.arc a).child = new ∨
      (w.graph.arc a).child = m ∧ w.graph.layerOf m < layer := by
    rcases hr.drains m List.mem_cons_self with rfl | ⟨hl, hno⟩
    · exact ends.imp_right Or.inl
    · exact Or.inr (Or.inr ⟨ends.resolve_left (hno a on), hl⟩)
  refine ⟨hr.shrinks.trans (shrinks_unhook hw on), (hnode new).trans hr.off, fun b hb => (hact b).2 ⟨?_, hr.arcs b hb⟩,
    fun k hk h1 h2 => (hnode k).trans (hr.nodes k hk h1 h2), fun k hk => ?_, fun k hk => ?_⟩
  · rintro rfl
    obtain h | h | ⟨h, hl⟩ := ends
    · exact hb.2.1 h
    · exact hb.2.2.1 h
    · exact absurd hl (Nat.not_lt.2 (h ▸ hb.2.2.2))
  · have hk' : Debt.drain k ∈ Debt.drain m :: debts :=
      List.mem_of_ne_of_mem (by simp) (List.mem_of_ne_of_mem (by simp) hk)
    exact (hr.drains k hk').imp_right (And.imp_right fun hno b hb => hno b ((hact b).1 hb).2)
  · simp only [hnode]
    rcases List.mem_cons.1 (List.mem_of_ne_of_mem (by simp) hk) with e | hk
    · obtain ⟨-, rfl⟩ := Debt.settle.inj e
      rw [hr.shrinks.child]
      obtain h | h | ⟨h, -⟩ := ends
      · exact Or.inr (below a (hr.shrinks.arcActive a on) h)
      · exact Or.inl (h ▸ hr.off)
      · exact Or.inl (h ▸ off)
    · exact hr.settles k hk

theorem step (h : Step p c c') (hc : Census p c.2) (hr : Rising p w layer new c) (fed : Anchored p w layer new)
    (below : Replaced w layer new) : Rising p w layer new c' := by
  have hs := h.shrinks hc
  cases h with
  | visit =>
    exact hr.pass hs rfl (fun _ hm => List.mem_of_ne_of_mem (by simp) hm) fun _ hm => List.mem_of_ne_of_mem (by simp) hm
  | gone => exact hr.pass hs rfl (fun _ => List.mem_cons_of_mem _) fun _ => List.mem_cons_of_mem _
  | note =>
    exact hr.pass hs Workspace.graph_schedule (fun _ => List.mem_cons_of_mem _) fun _ => List.mem_cons_of_mem _
  | retire on bare root sink => exact hr.retire hc.wf fed on bare sink
  | unhook off on ends => exact hr.unhook hc.wf below off on ends
  | drained => exact hr.pass hs rfl (fun _ => List.mem_cons_of_mem _) fun _ => List.mem_cons_of_mem _
  | forget => exact hr.pass hs rfl (fun _ => id) fun _ => id

end Rising

/-- Deleting a node whose children have other arcs spares what does not lie above it. -/
theorem wp_dropNode_spares {layer : Nat} {new : NodeId} (hc : Census p w)
    (on : w.graph.isActive new = true) (root : w.graph.layerOf new ≠ 0)
    (sink : w.graph.layerOf new ≠ p.model.depth) (fed : Anchored p w layer new) (below : Replaced w layer new) :
    wp (dropNode p new) (fun _ w' => Rising p w layer new ([], w')) (fun _ _ => True) w := by
  refine wp.mono (pays_dropNode hc on root sink []) (fun _ w' hs => ?_) fun _ _ _ => trivial
  have hact := Workspace.isActive_retire (n := new) hc.wf
  have start : Rising p w layer new ([.drain new], w.retire new) := by
    refine ⟨shrinks_retire hc.wf on, Bool.eq_false_iff.2 fun h => ((hact new).1 h).1 rfl, fun a ha => ?_,
      fun m hm h1 _ => (hact m).2 ⟨hm, h1⟩, fun m hm => Or.inl ?_, fun m hm => ?_⟩
    · show (w.graph.withdraw new).arcIsActive a = true
      rw [Graph.arcIsActive, Graph.arc_withdraw]
      exact ha.1
    · exact Debt.drain.inj (List.mem_singleton.1 hm)
    · cases List.mem_singleton.1 hm
  exact (Steps.keeps (I := fun c => Census p c.2 ∧ Rising p w layer new c)
    (fun _ _ hs hi => ⟨hs.census hi.1, hi.2.step hs hi.1 fed below⟩) hs ⟨hc.retire on, start⟩).2

end DecisionDiagrams
