import DecisionDiagrams.Proofs.Engine.Dividing

/-! The laws of a new diagram. The state of a draft is blended from the states to which its branches lead,
and these are the arcs of the node which it becomes. The up states are not known yet, so their laws are not
looked at while a diagram is built. -/

namespace DecisionDiagrams

open Work Cascade

variable {p : Plan} {stale : Nat → Prop} {d : Direction} {L : Law p d} {w w' : Workspace} {layer : Nat}

/-- Before up states are known their law is not looked at. -/
theorem Workspace.not_sown_up (hu : w.upKnown = !p.model.hasUp) {n : NodeId} : ¬ w.Sown p .up n := by
  rintro ⟨hup, -, hknown⟩
  rw [hup] at hu
  rw [hu] at hknown
  cases hknown

/-- From the root every layer is reached. -/
theorem exists_active_of_fed {top : Nat} (hw : w.graph.Wf) (hf : Fed top nobody ([], w))
    (hr : Reached ([], w)) (root : Sole w 0) :
    ∀ l ≤ top, ∃ n, w.graph.isActive n = true ∧ w.graph.layerOf n = l
  | 0, _ => ⟨root.choose, root.choose_spec.1, root.choose_spec.2.1⟩
  | l + 1, hl => by
    obtain ⟨n, hn, hlay⟩ := exists_active_of_fed hw hf hr root l (Nat.le_of_succ_le hl)
    have inner : Inner top w .up n := Nat.lt_of_le_of_lt (Nat.le_of_eq hlay) hl
    have hfed := (hf .up n hn inner).resolve_right fun h => h.elim (fun h => by cases h) False.elim
    obtain ⟨a, ha⟩ := Array.isEmpty_eq_false_iff_exists_mem.1 hfed
    obtain ⟨on, hpar⟩ := (mem_arcsOn hw).1 ha
    have hadj := hw.adjacent a on
    rw [show (w.graph.arc a).parent = n from hpar, hlay] at hadj
    exact ⟨_, (hr a on).resolve_right List.not_mem_nil, hadj⟩

namespace Layered

variable {width : Option Nat} {ds : List Draft}

theorem sole (h : Layered p width layer w w' ds) {l : Nat} (hl : l ≠ layer + 1) (hs : Sole w l) :
    Sole w' l := by
  obtain ⟨n, hn, e, only⟩ := hs
  have hlt := Graph.lt_of_isActive _ hn
  refine ⟨n, (h.laid.isActive hlt).trans hn, (h.laid.layerOf hlt).trans e, fun m hm em => ?_⟩
  have hmlt := h.old_of_layerOf (Graph.lt_of_isActive _ hm) (by rw [em]; exact hl)
  exact only m ((h.laid.isActive hmlt).symm.trans hm) ((h.laid.layerOf hmlt).symm.trans em)

/-- The sink is the only node of its layer. -/
theorem sole_sink (h : Layered p width layer w w' ds) (low : ∀ n < w.graph.nodes.size, w.graph.layerOf n ≤ layer)
    (hl : layer + 1 = p.model.depth) (hds : ds ≠ []) : Sole w' (layer + 1) := by
  obtain ⟨d, rest, rfl⟩ := List.exists_cons_of_ne_nil hds
  have hone := h.sink hl
  have hrest : rest = [] := by
    rw [List.length_cons] at hone
    exact List.length_eq_zero_iff.1 (by omega)
  subst hrest
  obtain ⟨hlay, hon, -⟩ := h.laid.newNode 0 d rfl
  refine ⟨w.graph.nodes.size, hon, hlay, fun m hm em => ?_⟩
  rcases h.node_cases (Graph.lt_of_isActive _ hm) with hlt | ⟨i, e, he, rfl⟩
  · rw [h.laid.layerOf hlt] at em
    have := low m hlt
    omega
  · have hi := (List.getElem?_eq_some_iff.1 he).1
    rw [List.length_singleton, Nat.lt_one_iff] at hi
    rw [hi]
    exact Nat.add_zero _

/-- What enters the nodes from before. -/
theorem enters_old (h : Layered p width layer w w' ds) {m : NodeId}
    (hm : m < w.graph.nodes.size) : w'.enters .down m = w.enters .down m := by
  funext q v
  refine propext ⟨?_, ?_⟩
  · rintro ⟨a, ha, hend, rfl, rfl⟩
    rcases h.arc_cases ha with ⟨ha, e⟩ | ⟨hge, hlt⟩
    · refine ⟨a, ha, ?_, ?_, by rw [e]⟩
      · rw [← hend]
        exact congrArg Arc.child e.symm
      · exact congrArg Arc.parent e.symm
    · obtain ⟨i, e, -, -, hch⟩ := h.branch_of_arc hge hlt
      rw [show (w'.graph.arc a).child = m from hend] at hch
      exact absurd (hch ▸ hm) (Nat.not_lt.2 (Nat.le_add_right _ _))
  · rintro ⟨a, ha, hend, rfl, rfl⟩
    have e := h.laid.oldArc a (Graph.lt_of_arcIsActive _ ha)
    refine ⟨a, ?_, ?_, ?_, by rw [e]⟩
    · rw [Graph.arcIsActive, e]
      exact ha
    · rw [← hend]
      exact congrArg Arc.child e
    · exact congrArg Arc.parent e

/-- What enters a node which was a draft. -/
theorem enters_new (h : Layered p width layer w w' ds) (hw : w.graph.Wf) {i : Nat} {d : Draft}
    (hd : ds[i]? = some d) (q : NodeId) (v : Int) :
    w'.enters .down (w.graph.nodes.size + i) q v ↔ (q, v) ∈ d.arcs.toList := by
  refine ⟨?_, fun hb => ?_⟩
  · rintro ⟨a, ha, hend, rfl, rfl⟩
    rcases h.arc_cases ha with ⟨ha, e⟩ | ⟨hge, hlt⟩
    · have hlt := hw.child_lt ha
      rw [← e, show (w'.graph.arc a).child = w.graph.nodes.size + i from hend] at hlt
      exact absurd hlt (Nat.not_lt.2 (Nat.le_add_right _ _))
    · obtain ⟨j, e, he, hb, hch⟩ := h.branch_of_arc hge hlt
      rw [show (w'.graph.arc a).child = w.graph.nodes.size + i from hend] at hch
      obtain rfl : i = j := Nat.add_left_cancel hch
      obtain rfl := Option.some.inj (hd.symm.trans he)
      exact Array.mem_toList_iff.2 hb
  · obtain ⟨a, -, ha, hpar, hval, hch⟩ := h.arc_of_draft hd (Array.mem_toList_iff.1 hb)
    exact ⟨a, ha, hch, hpar, hval⟩

/-- A new layer leaves the diagram in one piece, but for the parents which got no arc. -/
theorem whole {label : Nat → Int → Prop} (h : Layered p width layer w w' ds)
    (hold : Whole p label layer (fun _ => False) ([], w)) (hw : w.graph.Wf) (hw' : w'.graph.Wf) (hds : ds ≠ [])
    (hlab : ∀ v, w.domains.contains (p.model.var layer) v = true → label layer v) :
    Whole p label (layer + 1) (· ∈ w.graph.layer layer) ([], w') where
  fed e n hn hi := (h.fed hw hw' hold.fed e n hn hi).imp_right (Or.imp_right And.right)
  reached := h.reached hold.reached
  low := h.low hold.low
  root := h.sole (Nat.succ_ne_zero _).symm hold.root
  seed m hm hl := by
    have hlt := h.old_of_layerOf (Graph.lt_of_isActive _ hm) (by rw [hl]; exact (Nat.succ_ne_zero _).symm)
    exact (h.laid.state hlt .down).trans (hold.seed m ((h.laid.isActive hlt).symm.trans hm)
      ((h.laid.layerOf hlt).symm.trans hl))
  sink e := h.sole_sink hold.low e hds
  labelled a ha := by
    show label (w'.graph.layerOf (w'.graph.arc a).parent) (w'.graph.arc a).value
    rcases h.arc_cases ha with ⟨ha, e⟩ | ⟨hge, hlt⟩
    · rw [e, h.laid.layerOf (hw.parent_lt ha)]
      exact hold.labelled a ha
    · obtain ⟨hact, hlay, hval, -⟩ := h.new_arc hw hge hlt
      rw [h.laid.layerOf (Graph.lt_of_isActive _ hact), hlay]
      exact hlab _ hval
  sized e := by
    show (w'.agenda.get e).size = _
    rw [h.laid.agenda]
    exact hold.sized e

/-- The state of a draft obeys the law of the node which it becomes. -/
theorem holds_new {L : Law p .down} (h : Layered p width layer w w' ds) (hl : layer < p.model.depth) (hw : w.graph.Wf)
    (hw' : w'.graph.Wf) {top : Nat} {bare : NodeId → Prop} (whole : Whole p L.label top bare ([], w')) {i : Nat}
    {e : Draft} (he : ds[i]? = some e) (o : Option Nat) : L.Of w' (w.graph.nodes.size + i) o := by
  obtain ⟨hlay, -, hstates⟩ := h.laid.newNode i e he
  have hdown : w'.graph.state (w.graph.nodes.size + i) Direction.down.side = e.down :=
    (Workspace.statesWith_down_up hstates).1
  have hfl : w'.feedLayer .down (w.graph.nodes.size + i) = layer := by
    show w'.graph.layerOf _ - 1 = _
    rw [hlay]
    rfl
  unfold Law.Of
  rw [hdown, hfl]
  refine L.blended rfl hl (fun q v hq => ?_) (h.enters_new hw he) ?_
  · rw [← hfl]
    exact whole.label_of_enters hw' hq
  · refine (h.drafted.reaches e (List.mem_of_getElem? he)).congr fun b hb => ?_
    have hacc := mem_acceptedBranches.1 (h.branch_of_draft he (Array.mem_toList_iff.1 hb))
    have hlt := Graph.lt_of_isActive _ (hw.mem_layer.1 hacc.1).1
    exact Workspace.follows_congr (fun side => h.laid.state hlt side) h.laid.upKnown

/-- A new layer keeps the laws. -/
theorem lawful (h : Layered p width layer w w' ds) (hl : layer < p.model.depth)
    (hlaw : Lawful L layer {} ([], w)) (hc : Census p w) (hw' : w'.graph.Wf)
    (hu : w.upKnown = !p.model.hasUp) (hds : ds ≠ [])
    (hlab : ∀ v, w.domains.contains (p.model.var layer) v = true → L.label layer v) :
    Lawful L (layer + 1) { bare := (· ∈ w.graph.layer layer) } ([], w') := by
  have whole := h.whole hlaw.toWhole hc.wf hw' hds hlab
  refine ⟨whole, fun m hm hs _ o => ?_⟩
  cases d with
  | up => exact absurd hs (Workspace.not_sown_up (h.laid.upKnown.trans hu))
  | down =>
    rcases h.node_cases (Graph.lt_of_isActive _ hm) with hlt | ⟨i, e, he, rfl⟩
    · have hm' := (h.laid.isActive hlt).symm.trans hm
      have hs' : w.Sown p .down m := Workspace.Sown.congr hs (h.laid.layerOf hlt).symm h.laid.upKnown.symm
      refine (hlaw.abide m hm' hs' id o).imp ?_ fun hold => ?_
      · unfold Excused
        simp only [h.laid.agenda, h.laid.layerOf hlt, h.enters_old hlt]
        exact id
      · refine hold.transport (Workspace.feedLayer_lt hc hm' hs')
          (fun q v hq => hlaw.toWhole.label_of_enters hc.wf hq) (h.laid.layerOf hlt) (h.enters_old hlt)
          (h.laid.state hlt _) fun q v hq => h.laid.state ?_ _
        obtain ⟨a, ha, -, rfl, -⟩ := hq
        exact hc.wf.parent_lt ha
    · exact Or.inr (h.holds_new hl hc.wf hw' whole he o)

end Layered

/-- What holds while a diagram is built down to a layer. -/
structure Founded (L : Law p d) (layer : Nat) (w : Workspace) : Prop where
  lawful : Lawful L layer {} ([], w)
  upKnown : w.upKnown = !p.model.hasUp
  labels : ∀ l < p.model.depth, ∀ v, w.domains.contains (p.model.var l) v = true → L.label l v

theorem Founded.growLayer (hp : p.Distinct) {width : Option Nat} (hw : width ≠ some 0)
    (hl : layer < p.model.depth) (h : Founded L layer w) (ht : Tidy p stale [] w) :
    wp (growLayer p width layer) (fun _ w' => Tidy p stale [] w' ∧ Founded L (layer + 1) w')
      (fun _ _ => True) w := by
  refine wp.mono (wp_growLayer hw hl ht) (fun _ w' hg => ?_) fun _ _ _ => trivial
  obtain ⟨w₁, ds, ht₁, hlay, hs, hfed⟩ := hg
  have hshrinks := Steps.shrinks hs ht₁.toCensus
  have hfed' := hfed _ (hlay.fed ht.wf ht₁.wf h.lawful.fed)
  have ht' := Steps.tidy hp hs ht₁
  -- some draft became a node, since the layer is reached in the end
  have hds : ds ≠ [] := by
    have hreached := Steps.reached hs ht₁.toCensus (hlay.reached h.lawful.reached)
    have hroot : Sole w' 0 := by
      refine (Steps.keeps (I := fun c => Census p c.2 ∧ Sole c.2 0)
        (fun _ _ hs hi => ⟨hs.census hi.1, hs.sole hi.1 (Or.inl rfl) hi.2⟩) hs
        ⟨ht₁.toCensus, hlay.sole (Nat.succ_ne_zero _).symm h.lawful.root⟩).2
    obtain ⟨n, hn, hln⟩ := exists_active_of_fed ht'.wf hfed' hreached hroot (layer + 1) (Nat.le_refl _)
    rw [hshrinks.layerOf] at hln
    rcases hlay.node_cases (Graph.lt_of_isActive _ (hshrinks.active n hn)) with hlt | ⟨i, e, he, -⟩
    · rw [hlay.laid.layerOf hlt] at hln
      have := h.lawful.low n hlt
      change w.graph.layerOf n ≤ layer at this
      omega
    · rintro rfl
      cases he
  have h₁ := Steps.lawful hs ht₁.toCensus
    (hlay.lawful hl h.lawful ht.toCensus ht₁.wf h.upKnown hds (h.labels layer hl))
  refine ⟨ht', ⟨{ h₁.toWhole with fed := hfed' }, h₁.abide⟩, ?_, fun l hl v hv => h.labels l hl v ?_⟩
  · exact (hshrinks.upKnown.trans hlay.laid.upKnown).trans h.upKnown
  · rw [← hlay.laid.domains]
    exact hshrinks.domains.contains _ _ hv

/-- The root alone. -/
theorem Founded.start {k : Nat} (hg : w.graph = Graph.withLayers k) (hu : w.upKnown = !p.model.hasUp)
    (hsized : ∀ e, (w.agenda.get e).size = p.model.depth + 1)
    (hlab : ∀ l < p.model.depth, ∀ v, w.domains.contains (p.model.var l) v = true → L.label l v)
    {states : BySide State} (hseed : states.down = p.model.fresh .down) :
    Founded L 0 (w.addNode 0 states).2 := by
  have hsole := Graph.Sole.addNode hg states
  have root : Sole (w.addNode 0 states).2 0 :=
    ⟨0, hsole.isActive, hsole.layerOf, fun m hm _ => hsole.only_active hm⟩
  refine ⟨⟨⟨fun e n hn hi => ?_, fun a ha => absurd ha (hsole.bare a), hsole.low, root,
    fun n hn _ => ?_, fun _ => root,
    fun a ha => absurd ha (hsole.bare a), hsized⟩, fun n hn hs _ o => ?_⟩, hu, hlab⟩
  · obtain rfl := hsole.only_active hn
    cases e
    · exact absurd hsole.layerOf (Nat.ne_of_gt hi)
    · exact absurd hi (Nat.not_lt_zero _)
  · obtain rfl := hsole.only_active hn
    exact (congrArg BySide.down hsole.states).trans hseed
  · obtain rfl := hsole.only_active hn
    cases d
    · exact absurd hsole.layerOf (Nat.ne_of_gt hs)
    · exact absurd hs (Workspace.not_sown_up (w := (w.addNode 0 states).2) hu)

/-- A diagram which is built obeys its laws. -/
theorem wp_grow_founded (hp : p.Distinct) {width : Option Nat} (hw : width ≠ some 0) {k : Nat}
    (hg : w.graph = Graph.withLayers k) (hu : w.upKnown = !p.model.hasUp)
    (hsized : ∀ e, (w.agenda.get e).size = p.model.depth + 1)
    (hlab : ∀ l < p.model.depth, ∀ v, w.domains.contains (p.model.var l) v = true → L.label l v)
    (ht : Tidy p stale [] w) :
    wp (grow p width) (fun _ w' => Tidy p stale [] w' ∧ Lawful L p.model.depth {} ([], w') ∧
      w'.upKnown = !p.model.hasUp) (fun _ _ => True) w := by
  let J : Workspace → Prop := fun w' => Tidy p stale [] w' ∧ Lawful L p.model.depth {} ([], w') ∧ w'.upKnown = !p.model.hasUp
  have ht₀ : Tidy p stale [] w.opened := ht.congr rfl rfl rfl ht.cached
  refine wp_grow_of (fun l w' => Tidy p stale [] w' ∧ Founded L l w') J (fun _ => trivial) (fun states hs => ?_)
    (fun l hl w' h => h.2.growLayer hp hw hl h.1) (fun w' known h => ?_)
    (fun w' _ h => ⟨h.1, h.2.lawful, h.2.upKnown⟩) fun w' h => ?_
  · exact ⟨ht₀.addNode (Nat.zero_le _) states,
      Founded.start (w := w.opened) hg hu hsized hlab (Workspace.statesWith_down_up hs).1⟩
  · exact wp.mono (secures_testNodes hp h.2.lawful h.1) (fun _ w₁ k => ⟨k.1, k.2.2,
      (k.2.1.upKnown known).trans (known.symm.trans h.2.upKnown)⟩) fun _ _ _ => trivial
  · refine wp.mono (wp_enforceSupports hp w') (fun _ w₁ k => ?_) fun _ _ _ => trivial
    refine ⟨k.1.tidy h.1, h.2.1.congr k.1.graph k.1.upKnown ?_, k.1.upKnown.trans h.2.2⟩
    rw [k.1.agenda]
    exact .refl _

end DecisionDiagrams
