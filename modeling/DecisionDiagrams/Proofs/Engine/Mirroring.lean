import DecisionDiagrams.Proofs.Engine.Lasting
import DecisionDiagrams.Proofs.Engine.Paths

/-! A diagram which is built gains no path. Splitting adds nodes and arcs, but each of them has an original
among those which were there: a new node stands beside the node it was split from, a copied or moved arc
beside the arc it replaces or doubles. So whatever a propagation does, and wherever it stops, what it leaves
behind can be folded back onto the diagram it began with. -/

namespace DecisionDiagrams

open Work Cascade

/-- `f` folds the second graph back onto the first one: labels, ends of arcs and layers are kept. -/
structure Graph.Folds (f : NodeId → NodeId) (g g' : Graph) : Prop where
  node : ∀ n, g'.isActive n = true → g.isActive (f n) = true ∧ g.layerOf (f n) = g'.layerOf n
  arc : ∀ a, g'.arcIsActive a = true → ∃ b, g.arcIsActive b = true ∧
    (g.arc b).parent = f (g'.arc a).parent ∧ (g.arc b).child = f (g'.arc a).child ∧
    (g.arc b).value = (g'.arc a).value

namespace Graph.Folds

variable {f k : NodeId → NodeId} {g g' g'' : Graph}

theorem refl (g : Graph) : Folds id g g := ⟨fun _ h => ⟨h, rfl⟩, fun a h => ⟨a, h, rfl, rfl, rfl⟩⟩

theorem trans (h : Folds f g g') (h' : Folds k g' g'') : Folds (f ∘ k) g g'' where
  node n hn := by
    obtain ⟨on, hl⟩ := h'.node n hn
    exact ⟨(h.node _ on).1, (h.node _ on).2.trans hl⟩
  arc a ha := by
    obtain ⟨b, on, hp, hc, hv⟩ := h'.arc a ha
    obtain ⟨c, on', hp', hc', hv'⟩ := h.arc b on
    exact ⟨c, on', hp'.trans (congrArg f hp), hc'.trans (congrArg f hc), hv'.trans hv⟩

/-- Paths are folded onto paths with the same labels. -/
theorem path (h : Folds f g g') (hw : g.Wf) (hw' : g'.Wf) {depth : Nat} :
    ∀ {as : List ArcId} {n : NodeId}, g'.IsPath depth n as →
      ∃ bs, g.IsPath depth (f n) bs ∧ g.labels bs = g'.labels as
  | [], n, hn => by
    obtain ⟨on, hl⟩ := hw'.mem_layer.1 hn
    exact ⟨[], hw.mem_layer.2 ⟨(h.node n on).1, (h.node n on).2.trans hl⟩, rfl⟩
  | a :: as, n, ha => by
    obtain ⟨on, rfl⟩ := hw'.mem_outgoing.1 ha.1
    obtain ⟨b, onb, hp, hc, hv⟩ := h.arc a on
    obtain ⟨bs, hbs, hlab⟩ := h.path hw hw' ha.2
    refine ⟨b :: bs, ⟨hw.mem_outgoing.2 ⟨onb, hp⟩, by rwa [hc]⟩, ?_⟩
    show (g.arc b).value :: g.labels bs = (g'.arc a).value :: g'.labels as
    rw [hv, hlab]

theorem fullPath (h : Folds f g g') (hw : g.Wf) (hw' : g'.Wf) {depth : Nat} {as : List ArcId}
    (has : g'.IsFullPath depth as) : ∃ bs, g.IsFullPath depth bs ∧ g.labels bs = g'.labels as := by
  obtain ⟨n, hn, hp⟩ := has
  obtain ⟨on, hl⟩ := hw'.mem_layer.1 hn
  obtain ⟨bs, hbs, hlab⟩ := h.path hw hw' hp
  exact ⟨bs, ⟨f n, hw.mem_layer.2 ⟨(h.node n on).1, (h.node n on).2.trans hl⟩, hbs⟩, hlab⟩

end Graph.Folds

/-- What a propagation of a built diagram can do to the graph. Nodes which were there stand for themselves, and
new ones are paid for by the budget. -/
structure Retraces (w w' : Workspace) : Prop extends Evolves w w' where
  folds : ∃ f, Graph.Folds f w.graph w'.graph ∧ ∀ n < w.graph.nodes.size, f n = n
  deterministic : Deterministic w → Deterministic w'
  spent : w.graph.nodes.size + w.budget ≤ w'.graph.nodes.size + w'.budget

namespace Retraces

variable {p : Plan} {w w' : Workspace}

theorem of_shrinks (h : Shrinks w w') : Retraces w w' :=
  { Evolves.of_shrinks h with
    folds := ⟨id, ⟨fun n hn => ⟨h.active n hn, (h.layerOf n).symm⟩, fun a ha =>
      ⟨a, h.arcActive a ha, (h.parent a).symm, (h.child a).symm, (h.value a).symm⟩⟩, fun _ _ => rfl⟩
    deterministic := fun hd => hd.shrink h
    spent := Nat.le_of_eq (by rw [h.nodes, h.budget]) }

theorem refl (w : Workspace) : Retraces w w := of_shrinks (.refl w)

theorem trans {w'' : Workspace} (h : Retraces w w') (k : Retraces w' w'') : Retraces w w'' :=
  { h.toEvolves.trans k.toEvolves with
    folds := by
      obtain ⟨f, hf, old⟩ := h.folds
      obtain ⟨g, hg, old'⟩ := k.folds
      refine ⟨_, hf.trans hg, fun n hn => ?_⟩
      show f (g n) = n
      rw [old' n (Nat.lt_of_lt_of_le hn h.nodes), old n hn]
    deterministic := fun hd => k.deterministic (h.deterministic hd)
    spent := Nat.le_trans h.spent k.spent }

instance : IsPreorder Workspace Retraces where
  refl := refl
  trans _ _ _ := trans

/-- Nothing happens to the graph and the budget. -/
theorem of_graph (he : Evolves w w') (hg : w'.graph = w.graph) (hb : w'.budget = w.budget) : Retraces w w' :=
  { he with
    folds := ⟨id, hg ▸ .refl _, fun _ _ => rfl⟩
    deterministic := fun hd => ⟨by rw [hg]; exact hd.single, by rw [hg]; exact hd.roots⟩
    spent := Nat.le_of_eq (by rw [hg, hb]) }

theorem quiet (h : Quiet p w w') : Retraces w w' := of_graph (.of_quiet h) h.graph h.budget

theorem putState {n : NodeId} (hn : n < w.graph.nodes.size) (side : Side) (s : State) :
    Retraces w (w.putState n side s) :=
  { Evolves.putState hn side s with
    folds := ⟨id, ⟨fun m hm => ⟨(Workspace.isActive_putState hn m).symm.trans hm,
      (Workspace.layerOf_putState hn m).symm⟩, fun a ha => ⟨a, ha, rfl, rfl, rfl⟩⟩, fun _ _ => rfl⟩
    deterministic := fun hd => ⟨hd.single, fun m k hm hk => by
      rw [Workspace.isActive_putState hn] at hm hk
      rw [Workspace.layerOf_putState hn, Workspace.layerOf_putState hn]
      exact hd.roots m k hm hk⟩
    spent := Nat.le_of_eq (congrArg (· + w.budget) (Graph.size_putState w.graph n side s).symm) }

end Retraces

/-- A step which adds no node, and leaves the down states of the nodes above a layer alone. -/
structure Mends (top : Nat) (w w' : Workspace) : Prop extends Retraces w w' where
  size : w'.graph.nodes.size = w.graph.nodes.size
  state : ∀ n < w.graph.nodes.size, w.graph.layerOf n < top → w'.graph.state n .down = w.graph.state n .down

namespace Mends

variable {p : Plan} {top : Nat} {w w' : Workspace}

theorem of_shrinks (h : Shrinks w w') : Mends top w w' :=
  { Retraces.of_shrinks h with size := h.nodes, state := fun n _ _ => h.state n .down }

theorem refl (w : Workspace) : Mends top w w := of_shrinks (.refl w)

theorem trans {w'' : Workspace} (h : Mends top w w') (k : Mends top w' w'') : Mends top w w'' :=
  { h.toRetraces.trans k.toRetraces with
    size := k.size.trans h.size
    state := fun n hn hl => (k.state n (Nat.lt_of_lt_of_le hn h.nodes) ((h.layerOf n hn).symm ▸ hl)).trans
      (h.state n hn hl) }

/-- Nothing is drawn from the budget. -/
theorem paid (h : Mends top w w') : w.budget ≤ w'.budget := by
  have := h.spent
  rw [h.size] at this
  omega

instance : IsPreorder Workspace (Mends top) where
  refl := refl
  trans _ _ _ := trans

/-- Nothing happens to the graph and the budget. -/
theorem of_graph (he : Evolves w w') (hg : w'.graph = w.graph) (hb : w'.budget = w.budget) : Mends top w w' :=
  { Retraces.of_graph he hg hb with size := by rw [hg], state := fun _ _ _ => by rw [hg] }

theorem quiet (h : Quiet p w w') : Mends top w w' := of_graph (.of_quiet h) h.graph h.budget

theorem schedule (d : Direction) (r : Demand) (n : NodeId) (w : Workspace) :
    Mends top w (w.schedule p d r n) := of_shrinks (shrinks_schedule d r n)

/-- A new state of a node, which has to be on the layer or below if it is a down state. -/
theorem putState {n : NodeId} (hn : n < w.graph.nodes.size) {side : Side} (low : side = .down → top ≤ w.graph.layerOf n)
    (s : State) : Mends top w (w.putState n side s) := by
  refine { Retraces.putState hn side s with
    size := Graph.size_putState w.graph n side s, state := fun m _ hl => ?_ }
  rw [Workspace.state_putState hn, if_neg]
  rintro ⟨rfl, rfl⟩
  exact Nat.not_lt.2 (low rfl) hl

end Mends

/-! ### Steps which may stop -/

/-- What is left behind where `R` is followed. -/
abbrev Followed (p : Plan) (R : Workspace → Workspace → Prop) (w w' : Workspace) : Prop := Filed p w' ∧ R w w'

/-- `R` holds between the workspace before a step and what the step leaves behind, also if it stops. -/
def Throughout {α : Type} (p : Plan) (R : Workspace → Workspace → Prop) (x : Work α) (w : Workspace) :
    Prop :=
  Filed p w → wp x (fun _ => Followed p R w) (fun _ => Followed p R w) w

theorem Throughout.mono {α : Type} {p : Plan} {R S : Workspace → Workspace → Prop} {w : Workspace} {x : Work α}
    (h : Throughout p R x w) (hm : ∀ w', R w w' → S w w') : Throughout p S x w := fun hf =>
  wp.mono (h hf) (fun _ w' k => ⟨k.1, hm w' k.2⟩) fun _ w' k => ⟨k.1, hm w' k.2⟩

section

variable {p : Plan} {top : Nat} {w : Workspace}

/-! ### Removals -/

/-- Removing an arc takes it out and then only takes things away, also if it stops. -/
theorem wp_cutArc_shrinks {a : ArcId} (hf : Filed p w) (ha : w.graph.arcIsActive a = true) :
    wp (cutArc p a) (fun _ w' => Filed p w' ∧ Shrinks (w.unhook a) w')
      (fun _ w' => Filed p w' ∧ Shrinks (w.unhook a) w') w := by
  have hu := hf.unhook ha
  refine wp.mono (pays_cutArc hf.toCensus ha []) (fun _ w' hs => ?_) fun e w' h => ?_
  · exact ⟨hs.filed hu, Steps.shrinks hs hu.toCensus⟩
  · obtain ⟨left, hs, -⟩ := h
    exact ⟨hs.filed hu, Steps.shrinks hs hu.toCensus⟩

theorem traces_cutArc {a : ArcId} (ha : w.graph.arcIsActive a = true) :
    Throughout p Shrinks (cutArc p a) w := fun hf =>
  have hu := shrinks_unhook hf.wf ha
  wp.mono (wp_cutArc_shrinks hf ha) (fun _ _ k => ⟨k.1, hu.trans k.2⟩) fun _ _ k => ⟨k.1, hu.trans k.2⟩

theorem traces_dropNode (n : NodeId) : Throughout p Shrinks (dropNode p n) w := by
  intro h
  have still : ∀ {left w'}, w.graph.isActive n = true → Steps p ([.drain n], w.retire n) (left, w') →
      Filed p w' ∧ Shrinks w w' := fun on hs =>
    ⟨hs.filed (h.retire on), (shrinks_retire h.wf on).trans (Steps.shrinks hs (h.retire on).toCensus)⟩
  refine wp_dropNode_of h.toCensus (fun _ => ⟨h, .refl w⟩) (fun _ _ => ⟨h, .refl w⟩) (fun on _ _ _ hs => still on hs)
    fun on _ _ hf => ?_
  obtain ⟨left, hs, -⟩ := hf
  exact still on hs

/-! ### Steps which are made of these -/

theorem Throughout.goesOn {α : Type} {R : Workspace → Workspace → Prop} [IsPreorder Workspace R] {x : Work α}
    {w' : Workspace} (h : Throughout p R x w') (k : Followed p R w w') :
    wp x (fun _ => Followed p R w) (fun _ => Followed p R w) w' :=
  wp.mono (h k.1) (fun _ _ l => ⟨l.1, trans_of R k.2 l.2⟩) fun _ _ l => ⟨l.1, trans_of R k.2 l.2⟩

/-- A removal among other steps. -/
theorem Throughout.mends {α : Type} {x : Work α} (h : Throughout p Shrinks x w) :
    Throughout p (Mends top) x w := h.mono fun _ => .of_shrinks

theorem Throughout.retraces {α : Type} {x : Work α} (h : Throughout p (Mends 0) x w) :
    Throughout p Retraces x w := h.mono fun _ k => k.toRetraces

/-- The states which may change are those on the layer `top` or below. -/
theorem updater_mends (top : Nat) (w : Workspace) : Updater p (fun side n => side = .down → top ≤ w.graph.layerOf n)
    (Followed p (Mends top) w) fun _ => Followed p (Mends top) w where
  cached h := h.1.cached
  quiet hq h := ⟨h.1.quiet hq, h.2.trans (.quiet hq)⟩
  faults _ h := h
  cut on h := (traces_cutArc on).mends.goesOn h
  drop n h := (traces_dropNode n).mends.goesOn h
  note d r n h := ⟨h.1.schedule d r n, h.2.trans (.schedule d r n _)⟩
  put s low hn h := ⟨h.1.putState hn _ s, h.2.trans (.putState hn (fun e => by
    rw [h.2.layerOf _ (Nat.lt_of_lt_of_eq hn h.2.size)]
    exact low e) s)⟩
  clear d layer h := ⟨h.1.clearLayer d layer, h.2.trans (.of_graph (.of_graph rfl (.refl _) id id) rfl rfl)⟩

theorem traces_testNodes : Throughout p (Mends top) (testNodes p) w := fun h =>
  (updater_mends top w).testNodes ⟨h, .refl w⟩

theorem traces_enforceDomains (lost : List Nat) : Throughout p (Mends top) (enforceDomains p lost) w := fun h =>
  (updater_mends top w).enforceDomains lost ⟨h, .refl w⟩

theorem traces_discardDead (n : NodeId) (layer : Nat) (cs : List Candidate) :
    Throughout p (Mends top) (discardDead p n layer cs) w := fun h =>
  (updater_mends top w).discardDead n layer cs ⟨h, .refl w⟩

theorem traces_adoptState {d : Direction} {n : NodeId} (hn : n < w.graph.nodes.size)
    (low : d = .down → top ≤ w.graph.layerOf n) (new : State) :
    Throughout p (Mends top) (adoptState p d n new) w := fun h =>
  (updater_mends top w).adoptState (fun e => low (by cases d <;> first | rfl | cases e)) nofun hn new ⟨h, .refl w⟩

theorem traces_recomputeLayer {d : Direction} {layer : Nat} (low : d = .down → top ≤ layer) :
    Throughout p (Mends top) (recomputeLayer p d layer) w := fun h =>
  (updater_mends top w).recomputeLayer (fun e he => ⟨fun hd => by
    rw [(h.suits d layer e he).2.1]
    exact low (by cases d <;> first | rfl | cases hd), nofun⟩) ⟨h, .refl w⟩

theorem traces_completeNodes : Throughout p (Mends top) (completeNodes p) w := fun h =>
  (updater_mends top w).toWriter.completeNodes (fun _ => ⟨nofun, nofun⟩)
    ⟨h.congr rfl rfl h.cached rfl rfl, .of_graph (.of_graph rfl (.refl _) (fun _ => rfl) id) rfl rfl⟩

theorem traces_removeValue (x : Var) (v : Int) : Throughout p Shrinks (removeValue x v) w := fun hf =>
  wp_removeValue_of (fun _ => ⟨hf, .refl w⟩) fun _ _ hd => ⟨hf.congr rfl rfl hf.cached rfl rfl,
    { Shrinks.refl w with domains := Domains.narrows_remove? hd }⟩

theorem traces_enforceSupports : Throughout p (Mends top) (enforceSupports p) w := fun h =>
  wp_enforceSupports_of (I := Followed p (Mends top) w) (fun x v => (traces_removeValue x v).mends.goesOn) ⟨h, .refl w⟩

end
end DecisionDiagrams
