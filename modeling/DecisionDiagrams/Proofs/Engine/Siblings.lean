import DecisionDiagrams.Proofs.Engine.Renewal
import DecisionDiagrams.Proofs.Engine.Rerouting

/-! A node beside another one. A bundle becomes a node, which gets copies of the outgoing arcs of the old one and then
the arcs of the bundle. Whenever an arc is added, the node it feeds is noted, except for the new one, which is looked
at when it has all its arcs: then it is entered by exactly those from which its state was blended. -/

namespace DecisionDiagrams

open Work Cascade

variable {p : Plan} {stale : Nat → Prop} {d : Direction} {L : Law p d} {w w' : Workspace}

/-! ### An arc is added -/

/-- The end of an arc which is fed in a direction. -/
def fedEnd (d : Direction) (parent child : NodeId) : NodeId :=
  match d with
  | .down => child
  | .up => parent

section

variable {q c n : NodeId} {v : Int} {l : Nat}

theorem Links.enters_of_ne (k : Links q c v w w') (hn : n ≠ fedEnd d q c) : w'.enters d n = w.enters d n := by
  funext m u
  refine propext ⟨?_, ?_⟩
  · rintro ⟨a, ha, hend, hfeed, hval⟩
    unfold endOn at hend
    unfold Workspace.feeder at hfeed
    rcases k.arc_cases ha with ⟨on, e⟩ | ⟨-, rfl, rfl, -⟩
    · rw [e] at hend hfeed hval
      exact ⟨a, on, hend, hfeed, hval⟩
    · refine absurd hend.symm ?_
      cases d
      · exact hn
      · exact hn
  · rintro ⟨a, ha, hend, hfeed, hval⟩
    have e := k.arc_old ha
    unfold endOn at hend
    unfold Workspace.feeder at hfeed
    rw [← e] at hend hfeed hval
    exact ⟨a, k.adds.arcActive_of a ha, hend, hfeed, hval⟩

/-- A node keeps its arcs. -/
theorem Links.fed (k : Links q c v w w') {e : Direction} (h : (w.arcsOn e n).isEmpty = false) :
    (w'.arcsOn e n).isEmpty = false := by
  obtain ⟨a, ha⟩ := Array.isEmpty_eq_false_iff_exists_mem.1 h
  refine Array.isEmpty_eq_false_iff_exists_mem.2 ⟨a, ?_⟩
  have en := Graph.node_connect w.graph q c v k.parent_lt k.child_lt n
  cases e with
  | down =>
    show a ∈ (w'.graph.node n).incoming
    rw [k.graph, en]
    dsimp only
    split_ifs
    · exact Array.mem_push.2 (Or.inl ha)
    · exact ha
  | up =>
    show a ∈ (w'.graph.node n).outgoing
    rw [k.graph, en]
    dsimp only
    split_ifs
    · exact Array.mem_push.2 (Or.inl ha)
    · exact ha

theorem Sole.link (h : Sole w l) (k : Links q c v w w') : Sole w' l := by
  obtain ⟨n, hn, e, only⟩ := h
  exact ⟨n, (k.isActive n).trans hn, (k.layerOf n).trans e,
    fun m hm em => only m ((k.isActive m).symm.trans hm) ((k.layerOf m).symm.trans em)⟩

theorem Whole.link {label : Nat → Int → Prop} {top : Nat} {bare : NodeId → Prop} (h : Whole p label top bare ([], w))
    (k : Links q c v w w') (hc : w.graph.isActive c = true) (hv : label (w.graph.layerOf q) v)
    (ha : w.agenda.Extends w'.agenda) : Whole p label top bare ([], w') where
  fed e n hn hi := (h.fed e n ((k.isActive n).symm.trans hn) (hi.of_layerOf (k.layerOf n))).imp_left k.fed
  reached a on := by
    refine Or.inl ((k.isActive _).trans ?_)
    rcases k.arc_cases on with ⟨on, e⟩ | ⟨-, -, e, -⟩
    · exact e ▸ (h.reached a on).resolve_right List.not_mem_nil
    · exact e ▸ hc
  low n hn := (k.layerOf n).symm ▸ h.low n (Nat.lt_of_lt_of_eq hn k.size)
  root := h.root.link k
  seed n hn hl := (k.state n .down).trans (h.seed n ((k.isActive n).symm.trans hn) ((k.layerOf n).symm.trans hl))
  sink e := (h.sink e).link k
  labelled a on := by
    show label (w'.graph.layerOf (w'.graph.arc a).parent) (w'.graph.arc a).value
    rw [k.layerOf]
    rcases k.arc_cases on with ⟨on, e⟩ | ⟨-, e, -, e'⟩
    · exact e ▸ h.labelled a on
    · rw [e, e']
      exact hv
  sized e := (ha.size e).trans (h.sized e)

/-- The node which an added arc feeds has to wait, unless its law is not looked at. -/
theorem Lawful.link {x : Slack} {top : Nat} (hx : p.options.isExact = false) (h : Lawful L top x ([], w))
    (k : Links q c v w w') (hc : w.graph.isActive c = true) (hv : L.label (w.graph.layerOf q) v)
    (ha : w.agenda.Extends w'.agenda) (noted : w.graph.isActive (fedEnd d q c) = true → w.Sown p d (fedEnd d q c) →
      ¬ x.late (fedEnd d q c) → ∀ o, (w'.agenda.waiting d (w.graph.layerOf (fedEnd d q c))).Covers (fedEnd d q c) o) :
    Lawful L top x ([], w') := by
  refine ⟨h.toWhole.link k hc hv ha, fun m hm hs hl o => ?_⟩
  have hm' := (k.isActive m).symm.trans hm
  have hs' : w.Sown p d m := hs.congr (k.layerOf m).symm k.upKnown.symm
  unfold Excused
  simp only [k.layerOf]
  by_cases hmf : m = fedEnd d q c
  · subst hmf
    exact Or.inl ⟨hx, Or.inl (noted hm' hs' hl o)⟩
  · refine (h.abide m hm' hs' hl o).imp ?_ fun hold =>
      hold.congr (k.layerOf m) (fun n => k.state n _) (k.enters_of_ne hmf)
    rintro ⟨-, hw | hw | hw | ⟨q', u, hk, hw⟩⟩
    · exact ⟨hx, Or.inl (ha.covers hw)⟩
    · exact ⟨hx, Or.inr (Or.inl hw)⟩
    · cases hw
    · exact ⟨hx, Or.inr (Or.inr (Or.inr ⟨q', u, (k.enters_of_ne hmf).symm ▸ hk, hw⟩))⟩

/-- A node waits which is noted when an arc is added. -/
theorem Workspace.covers_connect (hx : p.options.isExact = false) (hc : Census p w)
    (sized : ∀ e, (w.agenda.get e).size = p.model.depth + 1) (hq : q < w.graph.nodes.size) (hch : c < w.graph.nodes.size)
    (on : w.graph.isActive n = true) (hs : w.Sown p d n) (o : Option Nat) :
    (((w.connect q c v).schedule p d .full n).agenda.waiting d (w.graph.layerOf n)).Covers n o := by
  have k := Links.connect hq hch v
  rw [← k.layerOf n]
  refine Workspace.covers_schedule hx ((k.isActive n).trans on) (hs.congr (k.layerOf n) k.upKnown) ?_ rfl trivial
  rw [k.layerOf, Workspace.agenda_connect, sized d]
  exact Nat.lt_succ_of_le (hc.layerOf_le on)

theorem Workspace.extends_connect (w : Workspace) (q c : NodeId) (v : Int) (e : Direction) (r : Demand) (n : NodeId) :
    w.agenda.Extends ((w.connect q c v).schedule p e r n).agenda := by
  have := Workspace.extends_schedule (p := p) (w.connect q c v) e r n
  rwa [Workspace.agenda_connect] at this

end

section

variable {x : Slack} {top : Nat} {new : NodeId} {a : ArcId}

theorem Lawful.copying (hx : p.options.isExact = false) (h : Lawful L top x ([], w)) (hc : Census p w)
    (hn : w.graph.isActive new = true) (on : w.graph.arcIsActive a = true)
    (hl : w.graph.layerOf new = w.graph.layerOf (w.graph.arc a).parent) (late : x.late new) :
    Lawful L top x ([], w.copying p new a) := by
  have hact := (h.reached a on).resolve_right List.not_mem_nil
  refine h.link hx (Workspace.links_copying p (Graph.lt_of_isActive _ hn) (hc.wf.child_lt on)) hact ?_
    (Workspace.extends_connect ..) fun on' hs hlate => ?_
  · exact hl ▸ h.labelled a on
  · cases d with
    | down => exact Workspace.covers_connect hx hc h.sized (Graph.lt_of_isActive _ hn) (hc.wf.child_lt on) on' hs
    | up => exact absurd late hlate

theorem Lawful.redirecting (hx : p.options.isExact = false) (h : Lawful L top x ([], w)) (hc : Census p w)
    (hn : w.graph.isActive new = true) (on : w.graph.arcIsActive a = true) (late : x.late new) :
    Lawful L top x ([], w.redirecting p new a) := by
  have hp := hc.wf.parent_lt on
  refine h.link hx (Workspace.links_redirecting p hp (Graph.lt_of_isActive _ hn)) hn (h.labelled a on)
    (Workspace.extends_connect ..) fun on' hs hlate => ?_
  cases d with
  | down => exact absurd late hlate
  | up => exact Workspace.covers_connect hx hc h.sized hp (Graph.lt_of_isActive _ hn) on' hs

end

/-! ### A node is added -/

section

variable {layer l : Nat} {states : BySide State} {m : NodeId}

theorem Workspace.arcsOn_splitNode (hm : m ≠ w.graph.nodes.size) (e : Direction) :
    (w.splitNode layer states).arcsOn e m = w.arcsOn e m := by
  cases e
  · exact congrArg Node.incoming (Workspace.node_splitNode_of_ne hm)
  · exact congrArg Node.outgoing (Workspace.node_splitNode_of_ne hm)

theorem Sole.splitNode (h : Sole w l) (hl : l ≠ layer) : Sole (w.splitNode layer states) l := by
  obtain ⟨n, hn, e, only⟩ := h
  have hne := Nat.ne_of_lt (Graph.lt_of_isActive _ hn)
  refine ⟨n, (Workspace.isActive_splitNode hne).trans hn, (Workspace.layerOf_splitNode hne).trans e, fun m hm em => ?_⟩
  by_cases hmn : m = w.graph.nodes.size
  · subst hmn
    exact absurd (em.symm.trans Workspace.layerOf_splitNode_self) hl
  · exact only m ((Workspace.isActive_splitNode hmn).symm.trans hm) ((Workspace.layerOf_splitNode hmn).symm.trans em)

/-- A node in the middle which has no arcs yet. -/
theorem Whole.splitNode {label : Nat → Int → Prop} (h : Whole p label p.model.depth (fun _ => False) ([], w))
    (hw : w.graph.Wf) (h0 : 0 < layer) (hd : layer < p.model.depth) (states : BySide State) :
    Whole p label p.model.depth (· = w.graph.nodes.size) ([], w.splitNode layer states) where
  fed e m hm hi := by
    by_cases hmn : m = w.graph.nodes.size
    · exact Or.inr (Or.inr hmn)
    · rw [Workspace.arcsOn_splitNode hmn]
      exact (h.fed e m ((Workspace.isActive_splitNode hmn).symm.trans hm)
        (hi.of_layerOf (Workspace.layerOf_splitNode hmn))).imp_right (Or.imp_right False.elim)
  reached a ha := by
    refine Or.inl ((Workspace.isActive_splitNode (Nat.ne_of_lt (hw.child_lt ha))).trans ?_)
    exact (h.reached a ha).resolve_right List.not_mem_nil
  low m hm := by
    by_cases hmn : m = w.graph.nodes.size
    · subst hmn
      exact Nat.le_trans (Nat.le_of_eq Workspace.layerOf_splitNode_self) (Nat.le_of_lt hd)
    · have hlt : m < w.graph.nodes.size + 1 := Nat.lt_of_lt_of_eq hm Workspace.size_splitNode
      exact (Workspace.layerOf_splitNode hmn).symm ▸ h.low m (show m < w.graph.nodes.size by omega)
  root := h.root.splitNode (Nat.ne_of_lt h0)
  seed m hm hl := by
    have hmn : m ≠ w.graph.nodes.size := by
      rintro rfl
      exact absurd (Workspace.layerOf_splitNode_self.symm.trans hl) (Nat.ne_of_gt h0)
    exact (Workspace.state_splitNode hmn .down).trans (h.seed m ((Workspace.isActive_splitNode hmn).symm.trans hm)
      ((Workspace.layerOf_splitNode hmn).symm.trans hl))
  sink e := (h.sink e).splitNode (Nat.ne_of_gt hd)
  labelled a ha := by
    show label ((w.splitNode layer states).graph.layerOf (w.graph.arc a).parent) (w.graph.arc a).value
    rw [Workspace.layerOf_splitNode (Nat.ne_of_lt (hw.parent_lt ha))]
    exact h.labelled a ha
  sized := h.sized

/-- Slack for a node which has no arcs yet. -/
abbrev Slack.fresh (new : NodeId) : Slack := { bare := (· = new), late := (· = new) }

theorem Lawful.splitNode (h : Lawful L p.model.depth {} ([], w)) (hc : Census p w) (h0 : 0 < layer)
    (hd : layer < p.model.depth) (states : BySide State) :
    Lawful L p.model.depth (.fresh w.graph.nodes.size) ([], w.splitNode layer states) := by
  refine ⟨h.toWhole.splitNode hc.wf h0 hd states, fun m hm hs hl o => ?_⟩
  have hmn : m ≠ w.graph.nodes.size := hl
  have hm' := (Workspace.isActive_splitNode hmn).symm.trans hm
  have hs' : w.Sown p d m := hs.congr (Workspace.layerOf_splitNode hmn).symm rfl
  refine (h.abide m hm' hs' id o).imp ?_ fun hold => ?_
  · unfold Excused
    simp only [Workspace.layerOf_splitNode hmn]
    exact id
  · refine hold.transport (Workspace.feedLayer_lt hc hm' hs') (fun q v hq => h.toWhole.label_of_enters hc.wf hq)
      (Workspace.layerOf_splitNode hmn) rfl (Workspace.state_splitNode hmn _) fun q v hq => ?_
    refine Workspace.state_splitNode ?_ _
    obtain ⟨a, ha, -, rfl, -⟩ := hq
    cases d
    · exact Nat.ne_of_lt (hc.wf.parent_lt ha)
    · exact Nat.ne_of_lt (hc.wf.child_lt ha)

end

/-! ### An arc leads elsewhere -/

/-- An arc was replaced by one with its label which leads to another node. -/
structure Redirects (b : ArcId) (c : NodeId) (w w' : Workspace) : Prop where
  nodes : w'.graph.nodes.size = w.graph.nodes.size
  isActive : ∀ m, w'.graph.isActive m = w.graph.isActive m
  layerOf : ∀ m, w'.graph.layerOf m = w.graph.layerOf m
  state : ∀ m side, w'.graph.state m side = w.graph.state m side
  upKnown : w'.upKnown = w.upKnown
  old : ∀ a, w.graph.arcIsActive a = true → a ≠ b → w'.graph.arcIsActive a = true
  new : ∃ a, w'.graph.arcIsActive a = true ∧ (w'.graph.arc a).child = c ∧
    (w'.graph.arc a).parent = (w.graph.arc b).parent ∧ (w'.graph.arc a).value = (w.graph.arc b).value
  cases : ∀ a, w'.graph.arcIsActive a = true → (w.graph.arcIsActive a = true ∧ a ≠ b) ∨
    (w'.graph.arc a).child = c ∧ (w'.graph.arc a).parent = (w.graph.arc b).parent ∧
      (w'.graph.arc a).value = (w.graph.arc b).value

theorem Workspace.redirects {b : ArcId} {c : NodeId} (hr : (w.redirecting p c b).graph.Wf)
    (hp : (w.graph.arc b).parent < w.graph.nodes.size) (hc : c < w.graph.nodes.size) (on : w.graph.arcIsActive b = true)
    (hg : w'.graph = ((w.redirecting p c b).unhook b).graph) (hu : w'.upKnown = w.upKnown) : Redirects b c w w' := by
  have k := Workspace.links_redirecting p hp hc
  generalize w.redirecting p c b = v at hr hg k
  have hl := hr.listed b
  have hg : w'.graph = v.graph.detach b := hg
  have active : ∀ a, w'.graph.arcIsActive a = true ↔ a ≠ b ∧ v.graph.arcIsActive a = true := fun a => by
    rw [hg]
    exact Graph.arcIsActive_detach hl a
  have ends : ∀ a, (w'.graph.arc a).child = (v.graph.arc a).child ∧ (w'.graph.arc a).parent = (v.graph.arc a).parent ∧
      (w'.graph.arc a).value = (v.graph.arc a).value := fun a => by
    rw [hg]
    exact ⟨Graph.child_detach hl a, Graph.parent_detach hl a, Graph.value_detach hl a⟩
  refine ⟨?_, fun m => ?_, fun m => ?_, fun m side => ?_, hu, fun a ha hab => ?_, ?_, fun a ha => ?_⟩
  · rw [hg, Graph.size_detach, k.size]
  · rw [hg, Graph.isActive_detach hl, k.isActive]
  · rw [hg, Graph.layerOf_detach hl, k.layerOf]
  · rw [hg, Graph.state_detach hl, k.state]
  · exact (active a).2 ⟨hab, k.adds.arcActive_of a ha⟩
  · obtain ⟨on', hpar, hch, hval⟩ := k.arc_new
    refine ⟨w.graph.arcs.size, (active _).2 ⟨Nat.ne_of_gt (Graph.lt_of_arcIsActive _ on), on'⟩, ?_⟩
    rw [(ends _).1, (ends _).2.1, (ends _).2.2]
    exact ⟨hch, hpar, hval⟩
  · obtain ⟨hab, ha⟩ := (active a).1 ha
    rw [(ends _).1, (ends _).2.1, (ends _).2.2]
    exact (k.arc_cases ha).imp (fun h => ⟨h.1, hab⟩) fun h => ⟨h.2.2.1, h.2.1, h.2.2.2⟩

/-! ### A node beside another -/

/-- While a bundle of `n` becomes a node of its own, which is the next to be numbered: the arcs `moved` lead
to it by now, and its outgoing arcs are copies of those of `n`. -/
structure Beside (w₀ : Workspace) (n : NodeId) (layer : Nat) (s : State) (moved : List ArcId)
    (w : Workspace) : Prop where
  evolves : Evolves w₀ w
  size : w.graph.nodes.size = w₀.graph.nodes.size + 1
  states : ∀ m < w₀.graph.nodes.size, ∀ side, w.graph.state m side = w₀.graph.state m side
  upKnown : w.upKnown = w₀.upKnown
  newActive : w.graph.isActive w₀.graph.nodes.size = true
  newLayer : w.graph.layerOf w₀.graph.nodes.size = layer
  newState : w.graph.state w₀.graph.nodes.size .down = s
  stays : ∀ a, w₀.graph.arcIsActive a = true → a ∉ moved → w.graph.arcIsActive a = true
  rest : ∀ a, w.graph.arcIsActive a = true → (w.graph.arc a).parent ≠ w₀.graph.nodes.size →
    (w.graph.arc a).child ≠ w₀.graph.nodes.size → w₀.graph.arcIsActive a = true ∧ a ∉ moved
  into : ∀ a, w.graph.arcIsActive a = true → (w.graph.arc a).child = w₀.graph.nodes.size →
    ∃ b ∈ moved, (w₀.graph.arc b).parent = (w.graph.arc a).parent ∧
      (w₀.graph.arc b).value = (w.graph.arc a).value
  taken : ∀ b ∈ moved, ∃ a, w.graph.arcIsActive a = true ∧
    (w.graph.arc a).child = w₀.graph.nodes.size ∧ (w.graph.arc a).parent = (w₀.graph.arc b).parent ∧
      (w.graph.arc a).value = (w₀.graph.arc b).value
  out : ∀ a, w.graph.arcIsActive a = true → (w.graph.arc a).parent = w₀.graph.nodes.size →
    ∃ b, w₀.graph.arcIsActive b = true ∧ (w₀.graph.arc b).parent = n ∧
      (w₀.graph.arc b).child = (w.graph.arc a).child

namespace Beside

variable {w₀ : Workspace} {n : NodeId} {layer : Nat} {s : State} {moved : List ArcId}

theorem start (hw : w.graph.Wf) {states : BySide State} (hs : states.down = s) :
    Beside w n layer s [] (w.splitNode layer states) where
  evolves := (Adds.splitNode layer states w).toEvolves
  size := Workspace.size_splitNode
  states _ hm side := Workspace.state_splitNode (Nat.ne_of_lt hm) side
  upKnown := rfl
  newActive := Workspace.isActive_splitNode_self
  newLayer := Workspace.layerOf_splitNode_self
  newState := (Workspace.state_splitNode_self .down).trans hs
  stays _ ha _ := ha
  rest _ ha _ _ := ⟨ha, List.not_mem_nil⟩
  into _ ha e := absurd e (Nat.ne_of_lt (hw.child_lt ha))
  taken _ hb := absurd hb List.not_mem_nil
  out _ ha e := absurd e (Nat.ne_of_lt (hw.parent_lt ha))

/-- Only the graph matters, and whether the up states are known. -/
theorem congr (h : Beside w₀ n layer s moved w) (he : Evolves w w') (hg : w'.graph = w.graph)
    (hu : w'.upKnown = w.upKnown) : Beside w₀ n layer s moved w' := by
  refine ⟨h.evolves.trans he, ?_, ?_, hu.trans h.upKnown, ?_, ?_, ?_, ?_, ?_, ?_, ?_, ?_⟩
  all_goals rw [hg]
  · exact h.size
  · exact h.states
  · exact h.newActive
  · exact h.newLayer
  · exact h.newState
  · exact h.stays
  · exact h.rest
  · exact h.into
  · exact h.taken
  · exact h.out

theorem new_lt (h : Beside w₀ n layer s moved w) : w₀.graph.nodes.size < w.graph.nodes.size :=
  Graph.lt_of_isActive _ h.newActive

/-- A copy of an outgoing arc of the old node. -/
theorem copy (h : Beside w₀ n layer s moved w) (hw : w₀.graph.Wf) {b : ArcId}
    (hb : w₀.graph.arcIsActive b = true) (hn : (w₀.graph.arc b).parent = n) {c : NodeId} {v : Int}
    (hc : (w₀.graph.arc b).child = c) (k : Links w₀.graph.nodes.size c v w w') : Beside w₀ n layer s moved w' where
  evolves := h.evolves.trans k.adds.toEvolves
  size := k.size.trans h.size
  states m hm side := (k.state m side).trans (h.states m hm side)
  upKnown := k.upKnown.trans h.upKnown
  newActive := (k.isActive _).trans h.newActive
  newLayer := (k.layerOf _).trans h.newLayer
  newState := (k.state _ _).trans h.newState
  stays a ha hm := k.adds.arcActive_of a (h.stays a ha hm)
  rest a ha hp hch := by
    rcases k.arc_cases ha with ⟨on, e⟩ | ⟨-, e, -⟩
    · rw [e] at hp hch
      exact h.rest a on hp hch
    · exact absurd e hp
  into a ha hch := by
    rcases k.arc_cases ha with ⟨on, e⟩ | ⟨-, -, e, -⟩
    · rw [e] at hch ⊢
      exact h.into a on hch
    · exact absurd (hc.trans (e.symm.trans hch)) (Nat.ne_of_lt (hw.child_lt hb))
  taken b hb := by
    obtain ⟨a, on, h'⟩ := h.taken b hb
    exact ⟨a, k.adds.arcActive_of a on, (k.arc_old on).symm ▸ h'⟩
  out a ha hp := by
    rcases k.arc_cases ha with ⟨on, e⟩ | ⟨-, -, e, -⟩
    · rw [e] at hp ⊢
      exact h.out a on hp
    · exact ⟨b, hb, hn, hc.trans e.symm⟩

/-- An arc of the bundle leads to the new node and is taken from the old one. -/
theorem move (h : Beside w₀ n layer s moved w) (hw : w₀.graph.Wf) {b : ArcId} (hb : w₀.graph.arcIsActive b = true)
    (hm : b ∉ moved) (he : Evolves w w') (k : Redirects b w₀.graph.nodes.size w w') :
    Beside w₀ n layer s (b :: moved) w' := by
  have hlt := Graph.lt_of_arcIsActive _ hb
  have hpar := h.evolves.parent b hlt
  have hval := h.evolves.value b hlt
  -- arcs from before have the ends which they had
  have same : ∀ {a}, w.graph.arcIsActive a = true → (w'.graph.arc a).child = (w.graph.arc a).child ∧
      (w'.graph.arc a).parent = (w.graph.arc a).parent ∧ (w'.graph.arc a).value = (w.graph.arc a).value := fun ha =>
    have halt := Graph.lt_of_arcIsActive _ ha
    ⟨he.child _ halt, he.parent _ halt, he.value _ halt⟩
  refine ⟨h.evolves.trans he, k.nodes.trans h.size, fun m hm side => (k.state m side).trans (h.states m hm side),
    k.upKnown.trans h.upKnown, (k.isActive _).trans h.newActive, (k.layerOf _).trans h.newLayer,
    (k.state _ _).trans h.newState, fun a ha hna => ?_, fun a ha hp hch => ?_, fun a ha hch => ?_, fun a ha => ?_,
    fun a ha hp => ?_⟩
  · rw [List.mem_cons, not_or] at hna
    exact k.old a (h.stays a ha hna.2) hna.1
  · obtain ⟨on, hab⟩ := (k.cases a ha).resolve_right fun e => hch e.1
    rw [(same on).2.1] at hp
    rw [(same on).1] at hch
    exact (h.rest a on hp hch).imp_right fun hnot hm => (List.mem_cons.1 hm).elim hab hnot
  · rcases k.cases a ha with ⟨on, -⟩ | ⟨-, e, e'⟩
    · rw [(same on).1] at hch
      rw [(same on).2.1, (same on).2.2]
      exact (h.into a on hch).imp fun _ => And.imp_left (List.mem_cons_of_mem _)
    · exact ⟨b, List.mem_cons_self, (e.trans hpar).symm, (e'.trans hval).symm⟩
  · rcases List.mem_cons.1 ha with rfl | ha
    · obtain ⟨c, on, hch, e, e'⟩ := k.new
      exact ⟨c, on, hch, e.trans hpar, e'.trans hval⟩
    · obtain ⟨c, on, hch, h'⟩ := h.taken a ha
      refine ⟨c, k.old c on ?_, (same on).1.trans hch, (same on).2.1.trans h'.1, (same on).2.2.trans h'.2⟩
      -- the arc which is moved does not lead to the new node yet
      rintro rfl
      exact absurd ((h.evolves.child c hlt).symm.trans hch) (Nat.ne_of_lt (hw.child_lt hb))
  · rcases k.cases a ha with ⟨on, -⟩ | ⟨-, e, -⟩
    · rw [(same on).2.1] at hp
      rw [(same on).1]
      exact h.out a on hp
    · exact absurd (hpar.symm.trans (e.symm.trans hp)) (Nat.ne_of_lt (hw.parent_lt hb))

end Beside

/-- What holds while the new node gets its arcs. -/
def Growing (L : Law p d) (w₀ : Workspace) (n : NodeId) (layer : Nat) (s : State) (moved : List ArcId)
    (w : Workspace) : Prop :=
  Lawful L p.model.depth (.fresh w₀.graph.nodes.size) ([], w) ∧ Beside w₀ n layer s moved w

/-- The branch of an arc. -/
def Graph.branch (g : Graph) (a : ArcId) : Branch := ((g.arc a).parent, (g.arc a).value)

theorem Reaches.map {α β : Type} {m : Model} {lead : β → Checked State} {f : α → β} {ways : List α}
    {t : State} (h : Reaches m (fun a => lead (f a)) ways t) : Reaches m lead (ways.map f) t := by
  obtain ⟨ss, hf, hb⟩ := h
  exact ⟨ss, List.forall₂_map_left_iff.2 hf, hb⟩

theorem Workspace.follows_congr {l : Nat} {b : Branch}
    (hs : ∀ side, w'.graph.state b.1 side = w.graph.state b.1 side) (hu : w'.upKnown = w.upKnown) :
    w'.follows p l b = w.follows p l b := by
  unfold follows combined? combinedKnown
  rw [hs, hs, hu]

section

variable {n : NodeId} {layer : Nat} {c : Candidate}

/-- The state of a bundle obeys the law of the node which is entered by its arcs. -/
theorem Beside.holds {L : Law p .down} {w₀ : Workspace} {moved : List ArcId}
    (h : Growing L w₀ n layer c.down moved w) (ht : Tidy p stale [] w) (hw₀ : w₀.graph.Wf)
    (hm : ∀ a, a ∈ c.arcs ↔ a ∈ moved) (hon : ∀ a ∈ c.arcs, w₀.graph.arcIsActive a = true)
    (hr : Reaches p.model (w₀.leads p layer) c.arcs c.down) (hs : w.Sown p .down w₀.graph.nodes.size) (o : Option Nat) :
    L.Of w w₀.graph.nodes.size o := by
  have hlt := Workspace.feedLayer_lt ht.toCensus h.2.newActive hs
  have hfl : w.feedLayer .down w₀.graph.nodes.size = layer - 1 := by
    show w.graph.layerOf _ - 1 = _
    rw [h.2.newLayer]
  have hnew : w.graph.state w₀.graph.nodes.size Direction.down.side = c.down := h.2.newState
  unfold Law.Of
  rw [hnew]
  refine @Law.blended _ _ L rfl _ _ _ (c.arcs.map w₀.graph.branch) _ _ hlt
    (fun q v hq => h.1.toWhole.label_of_enters ht.wf hq) (fun q v => ⟨?_, ?_⟩) ?_
  · rintro ⟨a, ha, hend, rfl, rfl⟩
    obtain ⟨b, hb, hpar, hval⟩ := h.2.into a ha hend
    exact List.mem_map.2 ⟨b, (hm b).2 hb, Prod.ext hpar hval⟩
  · intro hmem
    obtain ⟨b, hb, e⟩ := List.mem_map.1 hmem
    obtain ⟨a, ha, hch, hpar, hval⟩ := h.2.taken b ((hm b).1 hb)
    obtain ⟨rfl, rfl⟩ := Prod.mk.inj e
    exact ⟨a, ha, hch, hpar, hval⟩
  · rw [hfl]
    refine Reaches.map (hr.congr fun a ha => ?_)
    have hlt := hw₀.parent_lt (hon a ha)
    exact Workspace.follows_congr (b := w₀.graph.branch a) (fun side => h.2.states _ hlt side) h.2.upKnown

/-- A node whose arcs are those of a bundle stands for the bundle. -/
theorem Beside.lawful {w₀ : Workspace} {moved : List ArcId} (hx : p.options.isExact = false)
    (h : Growing L w₀ n layer c.down moved w) (ht : Tidy p stale [] w) (hw₀ : w₀.graph.Wf)
    (hm : ∀ a, a ∈ c.arcs ↔ a ∈ moved) (hon : ∀ a ∈ c.arcs, w₀.graph.arcIsActive a = true)
    (hr : Reaches p.model (w₀.leads p layer) c.arcs c.down) :
    Lawful L p.model.depth { bare := (· = w₀.graph.nodes.size) }
      ([], w.schedule p .up .full w₀.graph.nodes.size) := by
  have hg : (w.schedule p .up .full w₀.graph.nodes.size).graph = w.graph := Workspace.graph_schedule
  have hs := h.1.schedule .up .full w₀.graph.nodes.size
  refine ⟨hs.toWhole, fun m on hsown hl o => ?_⟩
  by_cases hmn : m = w₀.graph.nodes.size
  swap
  · exact hs.abide m on hsown hmn o
  subst hmn
  have hsown' : w.Sown p d w₀.graph.nodes.size :=
    hsown.congr (by rw [hg]) Workspace.upKnown_schedule.symm
  cases d with
  | up =>
    refine Or.inl ⟨hx, Or.inl ?_⟩
    show ((w.schedule p .up .full w₀.graph.nodes.size).agenda.waiting .up
      ((w.schedule p .up .full w₀.graph.nodes.size).graph.layerOf _)).Covers _ o
    rw [hg]
    refine Workspace.covers_schedule hx h.2.newActive hsown' ?_ rfl trivial
    rw [h.1.sized .up]
    exact Nat.lt_succ_of_le (ht.toCensus.layerOf_le h.2.newActive)
  | down =>
    refine Or.inr ((Beside.holds h ht hw₀ hm hon hr hsown' o).congr (by rw [hg]) (fun _ => by rw [hg]) ?_)
    exact Workspace.enters_congr (fun _ => by rw [hg]) (fun _ => by rw [hg]) (fun _ => by rw [hg]) fun _ => by rw [hg]

/-- What still leads to the old node was not moved. -/
theorem Beside.kept {w₀ : Workspace} {s : State} {moved : List ArcId} (h : Beside w₀ n layer s moved w) (hw : w.graph.Wf)
    (hne : n ≠ w₀.graph.nodes.size) (hl : w.graph.layerOf n = layer) {a : ArcId} (ha : w.graph.arcIsActive a = true)
    (hch : (w.graph.arc a).child = n) : w₀.graph.arcIsActive a = true ∧ a ∉ moved := by
  refine h.rest a ha (fun hp => ?_) (hch.symm ▸ hne)
  have hadj := hw.adjacent a ha
  rw [hch, hp, hl, h.newLayer] at hadj
  exact absurd hadj (Nat.ne_of_lt (Nat.lt_succ_self layer))

end

end DecisionDiagrams
