import DecisionDiagrams.Proofs.Engine.Screening

/-! A propagation of a diagram leaves no arc which fails its tests. Arcs are tested before they are added, with
a new layer or when a node is split; an arc which is moved to a new node led to a node with the same up state
before. -/

namespace DecisionDiagrams

open Work Cascade

variable {p : Plan} {stale : Nat → Prop} {w w' : Workspace}

/-! ### Splitting -/

theorem Screened.splitNode (h : AllScreened p w) (hw : w.graph.Wf) {layer : Nat} {states : BySide State}
    (hl : layer = p.model.depth ∨ p.model.hasUp = false → states.up = p.model.fresh .up) :
    AllScreened p (w.splitNode layer states) := by
  refine ⟨fun m hm hlm => ?_, fun a (ha : w.graph.arcIsActive a = true) _ up hup => ?_⟩
  · by_cases e : m = w.graph.nodes.size
    · subst e
      rw [Workspace.layerOf_splitNode_self] at hlm
      rw [Workspace.state_splitNode_self]
      exact hl hlm
    · rw [Workspace.layerOf_splitNode e] at hlm
      rw [Workspace.size_splitNode] at hm
      rw [Workspace.state_splitNode e]
      exact h.ground m (Nat.lt_of_le_of_ne (Nat.le_of_lt_succ hm) e) hlm
  · have hpar := Nat.ne_of_lt (hw.parent_lt ha)
    have hch := Nat.ne_of_lt (hw.child_lt ha)
    rw [hup trivial]
    show p.model.Permits ((w.splitNode layer states).graph.layerOf (w.graph.arc a).parent) (w.graph.arc a).value
      ((w.splitNode layer states).graph.state (w.graph.arc a).parent .down)
      ((w.splitNode layer states).graph.state (w.graph.arc a).child .up)
    rw [Workspace.layerOf_splitNode hpar, Workspace.state_splitNode hpar, Workspace.state_splitNode hch]
    exact h.arcs a ha id _ fun _ => rfl

theorem Screened.link (h : AllScreened p w) {q c : NodeId} {v : Int} (k : Links q c v w w')
    (hv : p.model.Permits (w.graph.layerOf q) v (w.graph.state q .down) (w.graph.state c .up)) :
    AllScreened p w' := by
  refine ⟨fun m hm hl => ?_, fun a ha _ up hup => ?_⟩
  · rw [k.layerOf] at hl
    rw [k.state]
    exact h.ground m (Nat.lt_of_lt_of_eq hm k.size) hl
  · rw [hup trivial, k.layerOf, k.state, k.state]
    rcases k.arc_cases ha with ⟨on, e⟩ | ⟨-, hpar, hch, hval⟩
    · rw [e]
      exact h.arcs a on id _ fun _ => rfl
    · rw [hpar, hch, hval]
      exact hv

/-- A node is beside another one, with the same up state. -/
structure Sibling (n new : NodeId) (w : Workspace) : Prop where
  layer : w.graph.layerOf new = w.graph.layerOf n
  up : w.graph.state new .up = w.graph.state n .up

namespace Sibling

variable {n new : NodeId}

theorem shrink (h : Sibling n new w) (hs : Shrinks w w') : Sibling n new w' :=
  ⟨by rw [hs.layerOf, hs.layerOf, h.layer], by rw [hs.state, hs.state, h.up]⟩

theorem link (h : Sibling n new w) {q c : NodeId} {v : Int} (k : Links q c v w w') : Sibling n new w' :=
  ⟨by rw [k.layerOf, k.layerOf, h.layer], by rw [k.state, k.state, h.up]⟩

theorem splitNode (hn : n < w.graph.nodes.size) {states : BySide State} (hs : states.up = w.graph.state n .up) :
    Sibling n w.graph.nodes.size (w.splitNode (w.graph.layerOf n) states) := by
  have hne := Nat.ne_of_lt hn
  refine ⟨?_, ?_⟩
  · rw [Workspace.layerOf_splitNode_self, Workspace.layerOf_splitNode hne]
  · rw [Workspace.state_splitNode_self, Workspace.state_splitNode hne]
    exact hs

end Sibling

variable {n : NodeId} {layer : Nat}

theorem secures_splitOff_screened (hp : p.Distinct) (hm : p.model.Frugal) {c : Candidate} (hd : layer < p.model.depth)
    (h : AllScreened p w) (hc : c.Enters layer n w) :
    Secures p stale (splitOff p n layer c) (fun _ w' => AllScreened p w') w := by
  intro ht
  let J : Workspace → Prop := fun w' => Upkept p stale w w' ∧ AllScreened p w' ∧ Sibling n w.graph.nodes.size w'
  refine wp_splitOff (fun _ => J) (fun _ => J) ht.wf hc (fun _ => trivial) (fun states hs => ?_)
    (fun a as w' stocks ha k => ?_) (fun _ _ k => k) (fun a as w' sprouts hc' ha k => ?_) fun w' _ k => ?_
  · obtain rfl := hc.layerOf
    obtain ⟨-, hup⟩ := Workspace.statesWith_down_up hs
    have h₁ := ht.addNode (Nat.le_of_lt hd) states
    exact ⟨⟨h₁.congr rfl rfl rfl h₁.cached, (Adds.splitNode _ states w).toEvolves⟩,
      h.splitNode ht.wf fun hg => hup.trans (h.ground n hc.lt hg), .splitNode hc.lt hup⟩
  · obtain ⟨on, hpar, hlt, -⟩ := stocks.source ht.wf hc.layerOf ha
    have links := Workspace.links_copying p stocks.sprouts.new_lt hlt
    have hl : w'.graph.layerOf w.graph.nodes.size = w'.graph.layerOf (w'.graph.arc a).parent := by
      rw [hpar, k.2.2.layer]
    exact wp_copyArc (fun _ => trivial) (fun _ => k) fun kept =>
      ⟨⟨k.1.1.copying stocks.isActive_new on hl, k.1.2.trans links.adds.toEvolves⟩,
        k.2.1.link links (permits_of_keepsArc hm kept), k.2.2.link links⟩
  · refine wp_moveArc (fun _ => ⟨k, .refl w'⟩) fun on => ?_
    obtain ⟨-, hch⟩ := hc'.arcs a ha
    have links := Workspace.links_redirecting p (k.1.1.wf.parent_lt on) sprouts.new_lt
    have ht₁ := k.1.1.redirecting on hch sprouts.new_lt k.2.2.layer
    -- the new end of the arc has the up state of the old one
    have h₁ : AllScreened p (w'.redirecting p w.graph.nodes.size a) := by
      refine k.2.1.link links ?_
      rw [k.2.2.up, ← hch]
      exact k.2.1.arcs a on id _ fun _ => rfl
    refine (lessens_cutArc hp (links.adds.arcActive_of a on)).goesOn ⟨ht₁, links.adds.toEvolves⟩ fun _ w'' l hs => ?_
    exact ⟨⟨⟨l.1, k.1.2.trans l.2⟩, h₁.shrink hs.1.toShrinks, (k.2.2.link links).shrink hs.1.toShrinks⟩, l.2⟩
  · have h₁ : AllScreened p (w'.schedule p .up .full w.graph.nodes.size) := k.2.1.congr Workspace.graph_schedule
    have ht₁ : Upkept p stale w (w'.schedule p .up .full w.graph.nodes.size) :=
      ⟨k.1.1.schedule _ _ _, k.1.2.trans (.schedule p _ _ _ w')⟩
    exact wp_dropUseless (fun _ => trivial) (fun _ => ⟨ht₁.1, ht₁.2, h₁⟩) (fun _ => (lessens_dropNode hp _).goesOn ht₁
      fun _ _ l hs => ⟨l.1, l.2, h₁.shrink hs.toShrinks⟩) fun _ _ _ => ⟨ht₁.1, ht₁.2, h₁⟩

/-- A node takes over the state of its only bundle. -/
theorem wp_adoptBundle_screened (hp : p.Distinct) (hm : p.model.Frugal) {c : Candidate} {v : Workspace}
    (hb : Bundled p layer n [c] w) (h : Sifted p stale .down v w) :
    wp (adoptState p .down n c.down) (fun _ => Sifted p stale .down v) (fun _ _ => True) w :=
  wp.mono (wp_adoptState_screened hp hm (d := .down) hb.active nofun ⟨⟨h.1.1, .refl w⟩, h.2⟩)
    (fun _ _ k => .trans h.1 k) fun _ _ _ => trivial

theorem secures_splitNodes_screened (hp : p.Distinct) (hm : p.model.Frugal) (hd : layer < p.model.depth)
    (maxWidth fuel : Nat) (tried : List NodeId) (h : AllScreened p w) :
    Secures p stale (splitNodes p layer maxWidth fuel tried) (fun _ w' => AllScreened p w') w := by
  intro ht
  have N : Noter p (Sifts p stale (fun _ => True) (fun _ => False) .down w) fun _ _ => True := noter_sifts hp _ _ _ _
  refine wp.mono (Splitter.wp_splitNodes (I := fun _ => Sifted p stale .down w) (Q := fun _ => Sifted p stale .down w)
    (E := fun _ _ => True) ?_ fuel ⟨⟨ht, .refl w⟩, h, .down p w⟩) (fun _ _ k => ⟨k.1.1, k.1.2, k.2.1⟩) fun _ _ k => k
  exact
    { sound := fun k => ⟨k.1.1.wf, k.1.1.cached⟩
      quiet := N.quiet
      faults := fun _ _ => trivial
      exhausted := fun _ => trivial
      full := fun k _ => k
      done := fun k _ => k
      kept := fun _ _ k => k
      adopt := wp_adoptBundle_screened hp hm
      discard := fun _ k => wp.mono (N.discardDead _ _ _ k) (fun _ _ k _ => N.quiet (.tally _ _) k) fun _ _ k => k
      split := fun hb hd' _ k => hb.wp_splitOffs k.1.1.wf (fun _ hc => hd'.subset (List.mem_of_mem_take hc)) k
        fun _ _ _ _ hc k => wp.mono (secures_splitOff_screened hp hm hd k.2.1 hc k.1.1)
          (fun _ _ l => ⟨⟨⟨l.1, k.1.2.trans l.2.1⟩, l.2.2, .down p _⟩, l.2.1⟩) fun _ _ l => l }

/-! ### Passes -/

/-- Between the passes the diagram is whole, so that up passes reach every arc which they have to test. -/
theorem sweeper_screened {d : Direction} {L : Law p d} (hp : p.Distinct) (hx : p.options.isExact = false)
    (ho : p.model.ReadsOwn) (hm : p.model.Frugal) (fuel : Nat) {v : Workspace}
    (hu : p.model.hasUp = true → v.upKnown = true) :
    Sweeper p fuel (fun w => Upholds stale L p.model.depth {} v w ∧ AllScreened p w) fun _ _ => True where
  tally f k := ⟨k.1.quiet (.tally f _), k.2.congr rfl⟩
  exhausted _ := trivial
  up hup _ layer k := ((secures_recomputeLayer hp hx ho .up layer k.1.2).and (secures_recomputeLayer_screened hp hm .up
    layer k.2 ⟨fun _ => hup, fun _ => k.1.1.2.upKnown (hu hup), fun _ => k.1.2.reached⟩)).goesOn k.1.1
      fun _ _ l hs => ⟨⟨l, hs.1⟩, hs.2⟩
  down layer k := ((secures_recomputeLayer hp hx ho .down layer k.1.2).and (secures_recomputeLayer_screened hp hm .down
    layer k.2 (.down p _))).goesOn k.1.1 fun _ _ l hs => ⟨⟨l, hs.1⟩, hs.2⟩
  split hd k := ((secures_splitNodes hp hx ho hd _ fuel [] k.1.2).and (secures_splitNodes_screened hp hm hd _ fuel []
    k.2)).goesOn k.1.1 fun _ _ l hs => ⟨⟨l, hs.1⟩, hs.2⟩

/-! ### Growth -/

/-- The arcs of a new layer passed their tests. -/
theorem Layered.screened {width : Option Nat} {layer : Nat} {ds : List Draft} (h : Layered p width layer w w' ds)
    (hw : w.graph.Wf) (hm : p.model.Frugal) (hs : EarlyScreened p w) : EarlyScreened p w' := by
  have up_new : ∀ {i : Nat} {e : Draft}, ds[i]? = some e →
      w'.graph.state (w.graph.nodes.size + i) .up = p.model.fresh .up := fun he =>
    (Workspace.statesWith_down_up (h.laid.newNode _ _ he).2.2).2
  refine ⟨fun n hn hl => ?_, fun a ha _ up hup => ?_⟩
  · rcases h.node_cases hn with hlt | ⟨i, e, he, rfl⟩
    · rw [h.laid.layerOf hlt] at hl
      rw [h.laid.state hlt]
      exact hs.ground n hlt hl
    · exact up_new he
  rcases h.arc_cases ha with ⟨ha, e⟩ | ⟨hge, hlt⟩
  · have hpar := hw.parent_lt ha
    have hch := hw.child_lt ha
    rw [e, h.laid.layerOf hpar, h.laid.state hpar]
    rw [e, h.laid.layerOf hch, h.laid.state hch] at hup
    exact hs.arcs a ha id up hup
  · obtain ⟨hact, hlay, -, hacc⟩ := h.new_arc hw hge hlt
    obtain ⟨i, e, he, -, hch⟩ := h.branch_of_arc hge hlt
    have hpar := Graph.lt_of_isActive _ hact
    rw [h.laid.layerOf hpar, h.laid.state hpar, hlay]
    have none_known : w.combined? p.model (w'.graph.arc a).parent = none := by
      unfold Workspace.combined? Workspace.combinedKnown
      rw [hm.hasCombined, Bool.and_false]
      rfl
    unfold Workspace.accepts at hacc
    dsimp only at hacc
    rw [none_known] at hacc
    refine Model.permits_of_passes hacc fun t ht => ?_
    split_ifs at ht with hd
    rw [hch, (h.laid.newNode i e he).1, up_new he] at hup
    exact (Option.some.inj ht).symm.trans (hup hd).symm

theorem wp_grow_screened (hp : p.Distinct) (hm : p.model.Frugal) {width : Option Nat} (hw : width ≠ some 0) {k : Nat}
    (hg : w.graph = Graph.withLayers k) (ht : Tidy p stale [] w) :
    wp (grow p width) (fun _ w' => EarlyScreened p w') (fun _ _ => True) w := by
  have ht₀ : Tidy p stale [] w.opened := ht.congr rfl rfl rfl ht.cached
  refine wp_grow_of (fun _ w' => Tidy p stale [] w' ∧ EarlyScreened p w') (EarlyScreened p) (fun _ => trivial)
    (fun states hs => ⟨ht₀.addNode (Nat.zero_le _) states, ?_⟩) (fun l hl w' h => ?_) (fun w' _ h => ?_) (fun _ _ h => h.2)
    fun w' h => ?_
  · have sole := Graph.Sole.addNode (w := w.opened) hg states
    refine ⟨fun n hn _ => ?_, fun a ha => absurd ha (sole.bare a)⟩
    obtain rfl := sole.only n hn
    exact (congrArg BySide.up sole.states).trans (Workspace.statesWith_down_up hs).2
  · refine wp.mono (wp_growLayer hw hl h.1) (fun _ w₂ hgr => ?_) fun _ _ _ => trivial
    obtain ⟨w₁, ds, ht₁, hlay, hs, -⟩ := hgr
    exact ⟨Steps.tidy hp hs ht₁, (hlay.screened h.1.wf hm h.2).shrink (Steps.shrinks hs ht₁.toCensus)⟩
  · refine wp.mono (wp_testNodes_of_nil hm.nodeChecks fun _ _ => True) (fun _ w₁ e => ?_) fun _ _ _ => trivial
    rw [e]
    exact h.2
  · exact wp.mono (wp_enforceSupports hp w') (fun _ w₁ k => h.congr k.1.graph) fun _ _ _ => trivial

/-! ### Propagations -/

theorem wp_maintainRelaxed_screened {d : Direction} {L : Law p d} (hp : p.Distinct) (hx : p.options.isExact = false)
    (hv : p.options.isValid = true) (ho : p.model.ReadsOwn) (hm : p.model.Frugal) (fuel : Nat) (lost : List Nat)
    (ht : Tidy p stale [] w) (h : Startable L w)
    (hs : w.built = true → AllScreened p w ∧ (p.model.hasUp = true → w.upKnown = true)) :
    wp (maintainRelaxed p fuel lost) (fun _ w' => AllScreened p w') (fun _ _ => True) w := by
  let obeys : Workspace → Prop := fun w' => Tidy p stale [] w' ∧ Lawful L p.model.depth {} ([], w')
  let ready : Workspace → Prop := fun w' =>
    obeys w' ∧ AllScreened p w' ∧ (p.model.hasUp = true → w'.upKnown = true)
  have hwidth := Options.firstWidth_ne_zero hv
  refine wp_maintainRelaxed_of (fun w' => obeys w' ∧ EarlyScreened p w') ready ready (AllScreened p) (fun new => ?_)
    (fun hup w' k => ?_) (fun hno w' k => ?_) (fun old => ⟨⟨ht, h.lawful old⟩, hs old⟩) (fun w' k => ?_) (fun w' k _ => ?_)
    (fun _ _ k _ => k.2.1) fun w' k => ?_
  · have hg : ∃ k, w.graph = Graph.withLayers k := by
      obtain ⟨hb, -⟩ | ⟨-, -, hg, -⟩ := h
      · exact absurd (hb.symm.trans new) nofun
      · exact hg
    obtain ⟨k, hg⟩ := hg
    exact wp.mono (wp.and (h.grows hp hwidth ht new) (wp_grow_screened hp hm hwidth hg ht)) (fun _ _ l => l)
      fun _ _ _ => trivial
  · refine ((secures_completeNodes hp hx k.1.2).and (secures_completeNodes_screened hp hm hup k.2)).goesOn
      ⟨k.1.1, .refl w'⟩ fun _ _ l hs => ⟨⟨l.1, hs.1⟩, hs.2.1, fun _ => hs.2.2⟩
  · exact ⟨k.1, k.2.mono (fun _ _ => trivial) fun _ _ => id, fun hup => absurd (hno.symm.trans hup) nofun⟩
  · have N : Noter p (Sifts p stale (fun _ => True) (fun _ => False) .down w') fun _ _ => True := noter_sifts hp _ _ _ _
    refine wp.mono (wp.and (secures_enforceDomains hp k.1.2 lost k.1.1)
      (N.toPruner.enforceDomains lost ⟨⟨k.1.1, .refl w'⟩, k.2.1, .down p w'⟩)) (fun _ w'' l => ?_) fun _ _ _ => trivial
    exact ⟨⟨l.1.1, l.1.2.2⟩, l.2.2.1, fun hup => l.2.1.2.upKnown (k.2.2 hup)⟩
  · exact wp.mono ((sweeper_screened hp hx ho hm fuel k.2.2).passes fuel 0 ⟨⟨⟨k.1.1, .refl w'⟩, k.1.2⟩, k.2.1⟩)
      (fun _ _ l => l.1.2) fun _ _ _ => trivial
  · exact wp.mono (wp_enforceSupports hp w') (fun _ w'' l => k.congr l.1.graph) fun _ _ _ => trivial

end DecisionDiagrams
