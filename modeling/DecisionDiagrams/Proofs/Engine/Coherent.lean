import DecisionDiagrams.Proofs.Engine.Extending
import DecisionDiagrams.Proofs.Engine.Mirroring
import DecisionDiagrams.Proofs.Spec.Combining
import DecisionDiagrams.Proofs.Work.Secures

/-! Combined states stay coherent: as soon as they are known, the combined state of every node is the one which
follows from its down and up state. New nodes get it with their states, and a node which gets another down or up
state has the properties computed again which read a changed one. This is kept also by a propagation which stops,
but for the first one: until all nodes are completed, the combined states are known for the lower layers only. -/

namespace DecisionDiagrams

open Work Cascade

/-- The diagram is built, and if up states are known, the combined states of all nodes but those which are left
out follow from their down and up states. -/
structure Diagram.Coherent (m : Model) (known : Bool) (left : Nat → NodeId → Prop) (d : Diagram) : Prop where
  built : d.built = true
  upKnown : d.upKnown = known
  ensues : known = true → m.hasCombined = true → ∀ n, d.graph.isActive n = true →
    ¬ left (d.graph.layerOf n) n →
    ∀ i, m.Ensues (d.graph.state n .down) (d.graph.state n .up) i (d.graph.state n .combined)

/-- All combined states follow from the down and up states. -/
abbrev Diagram.AllCoherent (m : Model) (known : Bool) (d : Diagram) : Prop := d.Coherent m known fun _ _ => False

variable {p : Plan} {m : Model} {known : Bool} {left left' : Nat → NodeId → Prop} {w : Workspace} {n : NodeId}

theorem Workspace.node_putState_of_ne {k : NodeId} (h : k ≠ n) (side : Side) (s : State) (w : Workspace) :
    (w.putState n side s).graph.node k = w.graph.node k := by
  show (w.graph.nodes.modify n _).getD k default = w.graph.nodes.getD k default
  rw [Array.getD_eq_getD_getElem?, Array.getElem?_modify, if_neg (Ne.symm h), Array.getD_eq_getD_getElem?]

namespace Diagram.Coherent

theorem mono {d : Diagram} (h : d.Coherent m known left)
    (hl : ∀ n, d.graph.isActive n = true → left (d.graph.layerOf n) n → left' (d.graph.layerOf n) n) :
    d.Coherent m known left' :=
  ⟨h.built, h.upKnown, fun hk has n on hn => h.ensues hk has n on fun hk => hn (hl n on hk)⟩

/-- Nodes may go. -/
theorem shrink {w' : Workspace} (h : w.Coherent m known left) (hs : Shrinks w w') : w'.Coherent m known left := by
  refine ⟨hs.built.trans h.built, hs.upKnown.trans h.upKnown, fun hk has n on hn i => ?_⟩
  rw [hs.layerOf] at hn
  rw [hs.state, hs.state, hs.state]
  exact h.ensues hk has n (hs.active n on) hn i

theorem congr {w' : Workspace} (h : w.Coherent m known left) (hg : w'.graph = w.graph) (hu : w'.upKnown = w.upKnown)
    (hb : w'.built = w.built) : w'.Coherent m known left := by
  refine ⟨hb.trans h.built, hu.trans h.upKnown, ?_⟩
  rw [hg]
  exact h.ensues

theorem link {w' : Workspace} (h : w.Coherent m known left) {q c : NodeId} {v : Int} (k : Links q c v w w') :
    w'.Coherent m known left := by
  refine ⟨k.built.trans h.built, k.upKnown.trans h.upKnown, fun hk has n on hn i => ?_⟩
  rw [k.isActive] at on
  rw [k.layerOf] at hn
  rw [k.state, k.state, k.state]
  exact h.ensues hk has n on hn i

/-- A new state of a node only matters to this node. -/
theorem putState (h : w.Coherent m known left) {side : Side} {s : State}
    (others : ∀ k a, left k a → left' k a ∨ a = n)
    (self : known = true → m.hasCombined = true → n < w.graph.nodes.size → w.graph.isActive n = true →
      ¬ left' (w.graph.layerOf n) n → ∀ i, m.Ensues ((w.putState n side s).graph.state n .down)
        ((w.putState n side s).graph.state n .up) i ((w.putState n side s).graph.state n .combined)) :
    (w.putState n side s).Coherent m known left' := by
  refine ⟨h.built, h.upKnown, fun hk has a on ha => ?_⟩
  by_cases e : a = n
  · subst e
    have hlt : a < w.graph.nodes.size :=
      Nat.lt_of_lt_of_eq (Graph.lt_of_isActive _ on) (Graph.size_putState w.graph a side s)
    rw [Workspace.isActive_putState hlt] at on
    rw [Workspace.layerOf_putState hlt] at ha
    exact self hk has hlt on ha
  · have same := Workspace.node_putState_of_ne e side s w
    rw [Graph.isActive, same] at on
    rw [Graph.layerOf, same] at ha
    rw [Graph.state, Graph.state, Graph.state, same]
    exact h.ensues hk has a on fun hk => (others _ _ hk).elim ha e

/-- A node no longer has to be left out when it gets a combined state which follows from its other states. -/
theorem putCombined (h : w.Coherent m known fun k a => left k a ∨ a = n) {new : State}
    (follows : known = true → m.hasCombined = true → w.graph.isActive n = true →
      ∀ i, m.Ensues (w.graph.state n .down) (w.graph.state n .up) i new) :
    (w.putState n .combined new).Coherent m known left := by
  refine h.putState (fun _ _ => id) fun hk has hlt on _ i => ?_
  rw [Workspace.state_putState_self hlt, Workspace.state_putState_of_ne hlt (show Side.down ≠ .combined from nofun),
    Workspace.state_putState_of_ne hlt (show Side.up ≠ .combined from nofun)]
  exact follows hk has on i

end Diagram.Coherent

/-- As soon as combined states are known, a new node gets one which follows. -/
theorem Workspace.ensues_of_statesWith (hm : m.Combining) (hu : w.upKnown = true) (has : m.hasCombined = true)
    {down up : State} {states : BySide State} (hs : w.statesWith m down up = .ok states) (i : Nat) :
    m.Ensues states.down states.up i states.combined := by
  unfold Workspace.statesWith Workspace.combinedKnown at hs
  rw [hu, has, Bool.and_true, if_pos rfl] at hs
  obtain ⟨combined, hc, hs⟩ := Checked.bind_eq_ok.1 hs
  obtain rfl := Except.ok.inj hs
  exact hm.ensues_derive hc i

/-- A node which is added with the states for it. -/
theorem Diagram.Coherent.addNode (hm : m.Combining) (h : w.AllCoherent m known) {layer : Nat} {down up : State}
    {states : BySide State} (hs : w.statesWith m down up = .ok states) :
    (w.addNode layer states).2.AllCoherent m known := by
  refine ⟨h.built, h.upKnown, fun hk has a on _ => ?_⟩
  change ((w.graph.appendNode layer states).2.node a).active = true at on
  show ∀ i, m.Ensues (((w.graph.appendNode layer states).2.node a).states.get .down)
    (((w.graph.appendNode layer states).2.node a).states.get .up) i
    (((w.graph.appendNode layer states).2.node a).states.get .combined)
  rw [Graph.node_appendNode] at on ⊢
  split_ifs at on ⊢ with e
  · exact w.ensues_of_statesWith hm (h.upKnown.trans hk) has hs
  · exact h.ensues hk has a on not_false

/-! ### New states -/

/-- The combined state of a node follows from a down and an up state of which only the listed properties changed
since. -/
def Workspace.Lags (m : Model) (n : NodeId) (changedDown changedUp : IndexSet) (w : Workspace) : Prop :=
  ∃ down up, (∀ i, m.Ensues down up i (w.graph.state n .combined)) ∧
    (∀ j, j ∉ changedDown → m.Alike .down j down (w.graph.state n .down)) ∧
    ∀ j, j ∉ changedUp → m.Alike .up j up (w.graph.state n .up)

/-- After the combined properties which read a changed property were computed again, the node is coherent. -/
theorem wp_rederive (hm : p.model.Combining) {changedDown changedUp : IndexSet}
    (h : w.Coherent p.model known fun _ a => a = n)
    (lags : known = true → p.model.hasCombined = true → w.graph.isActive n = true →
      w.Lags p.model n changedDown changedUp) :
    wp (rederive p n changedDown changedUp) (fun _ w' => w'.AllCoherent p.model known)
      (fun _ w' => w'.AllCoherent p.model known) w := by
  -- as long as the combined state is not written, it has to follow from the new states as it is
  have stays : (known = true → p.model.hasCombined = true → w.graph.isActive n = true →
      ∀ i, p.model.Ensues (w.graph.state n .down) (w.graph.state n .up) i (w.graph.state n .combined)) →
      w.AllCoherent p.model known := fun self => by
    refine ⟨h.built, h.upKnown, fun hk has a on _ => ?_⟩
    by_cases e : a = n
    · exact e ▸ self hk has (e ▸ on)
    · exact h.ensues hk has a on e
  refine wp_rederive_of (fun unknown => stays fun hk has => ?_) (fun _ he => stays fun hk has on i => ?_)
    (fun _ f hf => ?_) fun _ new hnew => ?_
  · unfold Workspace.combinedKnown at unknown
    rw [h.upKnown, hk, has] at unknown
    cases unknown
  · obtain ⟨down, up, follows, hdown, hup⟩ := lags hk has on
    exact hm.ensues_of_not_mem (follows i) hdown hup (IndexSet.isEmpty_iff.1 he i)
  · obtain ⟨r, hr⟩ := hm.exists_deriveInto (w.graph.state n .down) (w.graph.state n .up)
      (p.model.combinedDependents changedDown changedUp) (w.graph.state n .combined)
    cases hf.symm.trans hr
  · have follows : known = true → p.model.hasCombined = true → w.graph.isActive n = true →
        ∀ i, p.model.Ensues (w.graph.state n .down) (w.graph.state n .up) i new := fun hk has on => by
      obtain ⟨down, up, follows, hdown, hup⟩ := lags hk has on
      exact hm.ensues_deriveInto follows hdown hup hnew
    split_ifs with he
    · -- nothing that is read differs from what was there before
      have same : ∀ i, p.model.Alike .combined i (w.graph.state n .combined) new := fun i => by
        by_contra hne
        exact IndexSet.isEmpty_iff.1 he i (Model.mem_difference.2 hne)
      exact stays fun hk has on i => (follows hk has on i).of_alike (same i).symm
    · exact (h.mono fun _ _ => Or.inr).putCombined follows

/-- When a node gets a new state, its combined state lags by the properties which differ. -/
theorem Diagram.Coherent.lags (h : w.AllCoherent p.model known) {d : Direction} {new : State} (hk : known = true)
    (has : p.model.hasCombined = true) (hn : n < w.graph.nodes.size) (on : w.graph.isActive n = true) :
    (w.putState n d.side new).Lags p.model n (w.altered p n d new .down) (w.altered p n d new .up) := by
  have changed : ∀ j, j ∉ w.altered p n d new d →
      p.model.Alike d.side j (w.graph.state n d.side) ((w.putState n d.side new).graph.state n d.side) := fun j hj => by
    rw [Workspace.altered_self] at hj
    rw [Workspace.state_putState_self hn]
    by_contra hne
    exact hj (Model.mem_difference.2 hne)
  have others : ∀ side, side ≠ d.side →
      (w.putState n d.side new).graph.state n side = w.graph.state n side := fun _ hs =>
    Workspace.state_putState_of_ne hn hs n
  refine ⟨w.graph.state n .down, w.graph.state n .up, ?_, ?_⟩
  · rw [others .combined (by cases d <;> nofun)]
    exact h.ensues hk has n on not_false
  · cases d with
    | down =>
      rw [others .up nofun]
      exact ⟨changed, fun _ _ => .refl _ _ _ _⟩
    | up =>
      rw [others .down nofun]
      exact ⟨fun _ _ => .refl _ _ _ _, changed⟩

/-! ### Steps -/

/-- A filed workspace in which the combined states of all nodes follow but of those left out. -/
abbrev Ensuing (p : Plan) (known : Bool) (left : Nat → NodeId → Prop) (w : Workspace) : Prop :=
  Filed p w ∧ w.Coherent p.model known left

/-- One in which those of all nodes do. -/
abbrev AllEnsuing (p : Plan) (known : Bool) (w : Workspace) : Prop := Ensuing p known (fun _ _ => False) w

theorem Throughout.ensues {x : Work PUnit} (h : Throughout p Shrinks x w) (k : Ensuing p known left w) :
    wp x (fun _ => Ensuing p known left) (fun _ => Ensuing p known left) w :=
  wp.mono (h k.1) (fun _ _ l => ⟨l.1, k.2.shrink l.2⟩) fun _ _ l => ⟨l.1, k.2.shrink l.2⟩

theorem noter_coherent (known : Bool) (left : Nat → NodeId → Prop) :
    Noter p (Ensuing p known left) fun _ => Ensuing p known left where
  cached h := h.1.cached
  quiet hq h := ⟨h.1.quiet hq, h.2.congr hq.graph hq.upKnown hq.built⟩
  faults _ h := h
  cut on := (traces_cutArc on).ensues
  drop n := (traces_dropNode n).ensues
  note d r n h := ⟨h.1.schedule d r n, h.2.shrink (shrinks_schedule d r n)⟩

section

variable (hm : p.model.Combining)
include hm

theorem wp_adoptState_coherent (d : Direction) (hn : n < w.graph.nodes.size) (new : State) (h : AllEnsuing p known w) :
    wp (adoptState p d n new) (fun _ => AllEnsuing p known) (fun _ => AllEnsuing p known) w := by
  refine (noter_coherent known _).adoptState d new h ?_
  have put := h.1.putState hn d.side new
  have hn' : n < (w.putState n d.side new).graph.nodes.size :=
    Nat.lt_of_lt_of_eq hn (Graph.size_putState w.graph n d.side new).symm
  refine wp.mono (wp.and ((updater_mends 0 _).toWriter.rederive nofun hn' _ _ ⟨put, .refl _⟩)
    (wp_rederive hm ?_ fun hk has on => h.2.lags hk has hn ((Workspace.isActive_putState hn n).symm.trans on)))
    (fun _ _ k => ⟨k.1.1, k.2⟩) fun _ _ k => ⟨k.1.1, k.2⟩
  exact h.2.putState (fun _ _ => False.elim) fun _ _ _ _ hne => absurd rfl hne

theorem wp_recomputeLayer_coherent (d : Direction) (layer : Nat) (h : AllEnsuing p known w) :
    wp (recomputeLayer p d layer) (fun _ => AllEnsuing p known) (fun _ => AllEnsuing p known) w :=
  wp_recomputeLayer (fun _ => AllEnsuing p known) ⟨h.1.clearLayer d layer, h.2.congr rfl rfl rfl⟩
    (fun e _ _ k => (noter_coherent known _).recompute d e.1 e.2
      (fun new on k => wp_adoptState_coherent hm d (Graph.lt_of_isActive _ on) new k) k) fun _ k => k

theorem wp_splitOff_coherent {layer : Nat} {c : Candidate} (hc : c.Enters layer n w) (h : AllEnsuing p known w) :
    wp (splitOff p n layer c) (fun _ => AllEnsuing p known) (fun _ => AllEnsuing p known) w := by
  let J := AllEnsuing p known
  refine wp_splitOff (fun _ => J) (fun _ => J) h.1.wf hc (fun _ => h) (fun states hs => ?_)
    (fun a as w' stocks ha k => ?_) (fun _ _ k => k) (fun a as w' sprouts hc' ha k => ?_) fun w' _ k => ?_
  · exact ⟨h.1.splitNode (h.1.le_depth hc) states, (h.2.addNode hm hs).congr rfl rfl rfl⟩
  · obtain ⟨on, hpar, hchild, hlay⟩ := stocks.source h.1.wf hc.layerOf ha
    exact wp_copyArc (fun _ => k) (fun _ => k) fun _ => ⟨k.1.copying stocks.sprouts.new_lt hchild
      (by rw [hlay, stocks.layerOf_new]), k.2.link (Workspace.links_copying p stocks.sprouts.new_lt hchild)⟩
  · refine wp_moveArc (fun _ => ⟨k, .refl w'⟩) fun on => ?_
    have links := Workspace.links_redirecting p (k.1.wf.parent_lt on) sprouts.new_lt
    have filed : Filed p (w'.redirecting p w.graph.nodes.size a) :=
      k.1.redirecting on sprouts.new_lt (by rw [(hc'.arcs a ha).2, hc'.layerOf, sprouts.layerOf_new])
    exact wp.mono (traces_cutArc (links.adds.arcActive_of a on) filed) (fun _ _ l => ⟨⟨l.1, (k.2.link links).shrink l.2⟩,
      links.adds.toEvolves.trans (.of_shrinks l.2)⟩) fun _ _ l => ⟨l.1, (k.2.link links).shrink l.2⟩
  · have N := noter_coherent (p := p) known fun _ _ => False
    have k' := N.note .up .full w.graph.nodes.size k
    exact wp_dropUseless (fun _ => k') (fun _ => k') (fun _ => N.drop _ k') fun _ _ _ => k'

theorem wp_splitNodes_coherent (layer maxWidth fuel : Nat) (tried : List NodeId) (h : AllEnsuing p known w) :
    wp (splitNodes p layer maxWidth fuel tried) (fun _ => AllEnsuing p known) (fun _ => AllEnsuing p known) w := by
  have N := noter_coherent (p := p) known fun _ _ => False
  refine Splitter.wp_splitNodes (I := fun _ => AllEnsuing p known) ?_ fuel h
  exact
    { sound := fun k => ⟨k.1.wf, k.1.cached⟩
      quiet := N.quiet
      faults := fun _ k => k
      exhausted := fun k => k
      full := fun k _ => k
      done := fun k _ => k
      kept := fun _ _ k => k
      adopt := fun hb k => wp_adoptState_coherent hm .down hb.lt _ k
      discard := fun _ k => wp.mono (N.discardDead _ _ _ k) (fun _ _ k _ => N.quiet (.tally _ _) k) fun _ _ k => k
      split := fun hb hd _ k => hb.wp_splitOffs k.1.wf (fun _ hc => hd.subset (List.mem_of_mem_take hc)) k
        fun _ _ _ _ hc k => wp.mono (wp.and (wp_splitOff_coherent hm hc k) (lasts_splitOff hc k.1))
          (fun _ _ l => ⟨l.1, l.2.2.1.toEvolves⟩) fun _ _ l => l.1 }

/-! ### Propagations -/

/-- As soon as all combined states are right, they stay so in the course of a propagation. -/
theorem sweeper_coherent (known : Bool) (fuel : Nat) :
    Sweeper p fuel (AllEnsuing p known) fun _ => AllEnsuing p known where
  tally f k := ⟨k.1.quiet (.tally f _), k.2.congr rfl rfl rfl⟩
  exhausted k := k
  up _ _ layer := wp_recomputeLayer_coherent hm .up layer
  down layer := wp_recomputeLayer_coherent hm .down layer
  split _ := wp_splitNodes_coherent hm _ _ fuel []

omit hm in
theorem wp_enforceSupports_coherent (h : AllEnsuing p known w) :
    wp (enforceSupports p) (fun _ => AllEnsuing p known) (fun _ => AllEnsuing p known) w :=
  wp_enforceSupports_of (fun x v => (traces_removeValue x v).ensues) h

theorem wp_maintain_coherent (fuel : Nat) (lost : List Nat) (h : AllEnsuing p known w) :
    wp (if p.options.isExact then maintainExact p lost else maintainRelaxed p fuel lost)
      (fun _ => AllEnsuing p known) (fun _ => AllEnsuing p known) w := by
  let J := AllEnsuing p known
  have N : Noter p J fun _ => J := noter_coherent known _
  have old : w.built ≠ false := by simp [h.2.built]
  split_ifs
  · exact wp_maintainExact_of J (fun new => absurd new old) (fun _ => N.enforceDomains lost h) fun _ =>
      wp_enforceSupports_coherent
  · refine wp_maintainRelaxed_of (fun _ => False) J J J (fun new => absurd new old) (fun _ _ => False.elim)
      (fun _ _ => False.elim) (fun _ => h) (fun _ => N.enforceDomains lost) (fun _ k _ => ?_) (fun _ _ k _ => k) fun _ =>
        wp_enforceSupports_coherent
    exact wp.mono ((sweeper_coherent hm known fuel).passes fuel 0 k) (fun _ _ l => l.1) fun _ _ l => l

/-! ### The first propagation -/

/-- A node which is completed no longer has to be left out. -/
theorem wp_completeNode_coherent {layer : Nat} (h : Ensuing p known (fun k a => left k a ∨ a = n) w) :
    wp (completeNode p layer n) (fun _ => Ensuing p known left) (fun _ _ => True) w := by
  let risen : Workspace → Prop := fun w' => n < w'.graph.nodes.size ∧ Ensuing p known (fun k a => left k a ∨ a = n) w'
  have N := noter_coherent (p := p) known left
  refine wp_completeNode risen (Ensuing p known left) h.1.cached (fun off => ⟨h.1, ?_⟩) (fun _ _ _ => trivial)
    (fun on _ => ⟨Graph.lt_of_isActive _ on, h⟩) (fun on _ up w' hq _ => ?_) (fun _ _ _ => trivial)
    (fun has w' k => ⟨k.2.1, k.2.2.built, k.2.2.upKnown, fun _ hc => absurd (has.symm.trans hc) nofun⟩)
    (fun _ w' both k hb => ⟨k.2.1.putState k.1 .combined both, k.2.2.putCombined fun _ _ _ => hm.ensues_derive hb⟩)
    (fun _ _ _ => trivial) (fun _ k _ => wp.mono (N.drop n k) (fun _ _ l => l) fun _ _ _ => trivial)
    fun _ k => wp.mono (wp_when (N.retestOutgoing n k) k) (fun _ _ l => l) fun _ _ _ => trivial
  · refine ⟨h.2.built, h.2.upKnown, fun hk has a on ha => h.2.ensues hk has a on ?_⟩
    rintro (hl | rfl)
    · exact ha hl
    · exact absurd (off.symm.trans on) nofun
  · have hn : n < w'.graph.nodes.size := hq.graph ▸ Graph.lt_of_isActive _ on
    refine ⟨Nat.lt_of_lt_of_eq hn (Graph.size_putState w'.graph n .up up).symm, (h.1.quiet hq).putState hn .up up, ?_⟩
    exact (h.2.congr hq.graph hq.upKnown hq.built).putState (fun _ _ => Or.inl) fun _ _ _ _ hne => absurd (Or.inr rfl) hne

/-- When all nodes are completed, the diagram is coherent: the nodes of a layer are completed one after another,
from the last layer on, and those of the layers above are left out until then. -/
theorem wp_completeNodes_coherent (h : Filed p w) :
    wp (completeNodes p) (fun _ => AllEnsuing p true) (fun _ _ => True) w := by
  have known : Filed p { w with upKnown := true } := h.congr rfl rfl h.cached rfl rfl
  refine wp_completeNodes (fun rest => Ensuing p true fun l _ => l ∈ rest)
    (fun _ rest nodes => Ensuing p true fun l a => l ∈ rest ∨ a ∈ nodes) ⟨known, h.built, rfl, fun _ _ n on hn => ?_⟩
    (fun layer rest w' k => ⟨k.1, k.2.mono fun n on hl => ?_⟩) (fun layer rest n nodes w' k => ?_)
    (fun _ _ _ k => ⟨k.1, k.2.mono fun _ _ => Or.rec id fun hn => absurd hn List.not_mem_nil⟩)
    fun _ k => ⟨k.1, k.2.mono fun _ _ => List.not_mem_nil⟩
  · exact absurd (List.mem_reverse.2 (List.mem_range.2 (Nat.lt_succ_of_le (known.layerOf_le on)))) hn
  · rcases List.mem_cons.1 hl with rfl | hl
    · exact Or.inr (Array.mem_toList_iff.2 (k.1.wf.mem_layer.2 ⟨on, rfl⟩))
    · exact Or.inl hl
  · refine wp_completeNode_coherent hm ⟨k.1, k.2.mono ?_⟩
    rintro a - (hl | ha)
    · exact Or.inl (Or.inl hl)
    · rcases List.mem_cons.1 ha with rfl | ha
      · exact Or.inr rfl
      · exact Or.inl (Or.inr ha)

/-- The nodes of a new layer get the states for them. -/
theorem Layered.coherent {width : Option Nat} {layer : Nat} {w' : Workspace} {ds : List Draft}
    (hlay : Layered p width layer w w' ds) (h : w.AllCoherent p.model known) : w'.AllCoherent p.model known := by
  refine ⟨hlay.laid.built.trans h.built, hlay.laid.upKnown.trans h.upKnown, fun hk has n on _ => ?_⟩
  rcases hlay.node_cases (Graph.lt_of_isActive _ on) with hlt | ⟨i, d, hd, rfl⟩
  · rw [hlay.laid.state hlt, hlay.laid.state hlt, hlay.laid.state hlt]
    exact h.ensues hk has n (hlay.laid.evolves.active n hlt on) not_false
  · exact w.ensues_of_statesWith hm (h.upKnown.trans hk) has (hlay.laid.newNode i d hd).2.2

/-- The first diagram is coherent, since all nodes are new. -/
theorem wp_grow_coherent {stale : Nat → Prop} (hp : p.Distinct) {width : Option Nat} (hw : width ≠ some 0)
    (ht : Tidy p stale [] w) (hs : w.agenda.Suits p w.graph) (fresh : ∀ n, w.graph.isActive n = false) :
    wp (grow p width) (fun _ => AllEnsuing p w.upKnown) (fun _ _ => True) w := by
  let J := AllEnsuing p w.upKnown
  have ht₀ : Tidy p stale [] w.opened := ht.congr rfl rfl rfl ht.cached
  have h₀ : J w.opened := ⟨{ ht.toCensus.congr rfl rfl with built := rfl, cached := ht.cached, suits := hs },
    rfl, rfl, fun _ _ n on => absurd ((fresh n).symm.trans on) nofun⟩
  refine wp_grow_of (fun _ w' => Tidy p stale [] w' ∧ J w') J (fun _ => trivial) (fun states hs => ?_)
    (fun l hl w' k => ?_) (fun w' _ k => ?_) (fun _ _ k => k.2) fun w' k => ?_
  · exact ⟨ht₀.addNode (Nat.zero_le _) states, h₀.1.addNode (Nat.zero_le _) states, h₀.2.addNode hm hs⟩
  · refine wp.mono (wp.and (lasts_growLayer hp hw hl k.1 k.2.1) (wp_growLayer hw hl k.1)) (fun _ w₁ l => ?_)
      fun _ _ _ => trivial
    obtain ⟨⟨filed, tidy, -⟩, w₂, ds, ht₂, hlay, hsteps, -⟩ := l
    exact ⟨tidy, filed, (hlay.coherent hm k.2.2).shrink (Steps.shrinks hsteps ht₂.toCensus)⟩
  · exact wp.mono ((noter_coherent w.upKnown _).testNodes k.2) (fun _ _ l => l) fun _ _ _ => trivial
  · exact wp.mono (wp_enforceSupports_coherent k) (fun _ _ l => l) fun _ _ _ => trivial

/-- The up states are computed in relaxed diagrams only. -/
theorem wp_first_coherent {stale : Nat → Prop} (hp : p.Distinct) (hv : p.options.isValid = true)
    (fuel : Nat) (lost : List Nat) (ht : Tidy p stale [] w) (hs : w.agenda.Suits p w.graph)
    (fresh : ∀ n, w.graph.isActive n = false) (built : w.built = false) (hk : w.upKnown = !p.model.hasUp) :
    wp (if p.options.isExact then maintainExact p lost else maintainRelaxed p fuel lost)
      (fun _ => AllEnsuing p (!p.options.isExact || !p.model.hasUp)) (fun _ _ => True) w := by
  have new : w.built ≠ true := by simp [built]
  have grown : ∀ {width}, width ≠ some 0 → wp (grow p width) (fun _ => AllEnsuing p (!p.model.hasUp)) (fun _ _ => True) w :=
    fun hw => hk ▸ wp_grow_coherent hm hp hw ht hs fresh
  have supports : ∀ {known} w', AllEnsuing p known w' →
      wp (enforceSupports p) (fun _ => AllEnsuing p known) (fun _ _ => True) w' := fun w' k =>
    wp.mono (wp_enforceSupports_coherent k) (fun _ _ l => l) fun _ _ _ => trivial
  split_ifs with exact
  · rw [exact]
    exact wp_maintainExact_of (fun _ => False) (fun _ => grown (by simp)) (fun old => absurd old new) fun _ => False.elim
  · rw [Bool.not_eq_true] at exact
    rw [exact]
    let J := AllEnsuing p true
    refine wp_maintainRelaxed_of (AllEnsuing p (!p.model.hasUp)) J J J (fun _ => grown (Options.firstWidth_ne_zero hv))
      (fun _ _ k => wp_completeNodes_coherent hm k.1) (fun none _ k => ?_) (fun old => absurd old new) (fun _ k => ?_)
      (fun _ k _ => ?_) (fun old => absurd old new) supports
    · rwa [none] at k
    · exact wp.mono ((noter_coherent true _).enforceDomains lost k) (fun _ _ l => l) fun _ _ _ => trivial
    · exact wp.mono ((sweeper_coherent hm true fuel).passes fuel 0 k) (fun _ _ l => l.1) fun _ _ _ => trivial

end

end DecisionDiagrams
