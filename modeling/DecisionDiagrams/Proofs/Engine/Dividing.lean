import DecisionDiagrams.Proofs.Engine.Rising
import DecisionDiagrams.Proofs.Engine.Siblings

/-! Splitting keeps the laws. A bundle becomes a node beside the old one. The old node keeps the arcs of at least one
other bundle, so nothing is set off when arcs are moved, and if the new node is deleted again, only nodes above it
may follow. -/

namespace DecisionDiagrams

open Work Cascade

variable {p : Plan} {stale : Nat → Prop} {d : Direction} {L : Law p d} {w w' : Workspace}

/-! ### Arcs of the new node -/

section

variable {w₀ : Workspace} {n : NodeId} {layer : Nat} {s : State} {moved : List ArcId}

theorem secures_copyArc (hx : p.options.isExact = false) (hw₀ : w₀.graph.Wf)
    (h : Growing L w₀ n layer s moved w) (hlay : w₀.graph.layerOf n = layer) {b : ArcId}
    (hb : w₀.graph.arcIsActive b = true) (hn : (w₀.graph.arc b).parent = n) (hm : b ∉ moved) :
    Secures p stale (copyArc p w₀.graph.nodes.size b)
      (fun _ w' => Growing L w₀ n layer s moved w') w := by
  have hlt := Graph.lt_of_arcIsActive _ hb
  have on := h.2.stays b hb hm
  have hl : w.graph.layerOf w₀.graph.nodes.size = w.graph.layerOf (w.graph.arc b).parent := by
    rw [h.2.newLayer, h.2.evolves.parent b hlt, hn, h.2.evolves.layerOf n (hn ▸ hw₀.parent_lt hb), hlay]
  refine .of_tidies (tidies_copyArc h.2.newActive on hl) fun ht => ?_
  have links := Workspace.links_copying p h.2.new_lt (ht.wf.child_lt on)
  exact wp_copyArc (fun _ => trivial) (fun _ => h) fun _ => ⟨h.1.copying hx ht.toCensus h.2.newActive on hl rfl,
    h.2.copy hw₀ hb hn (h.2.evolves.child b hlt).symm links⟩

theorem secures_moveArc (hp : p.Distinct) (hx : p.options.isExact = false) (hw₀ : w₀.graph.Wf)
    (h : Growing L w₀ n layer s moved w) (hlay : w₀.graph.layerOf n = layer) {b z : ArcId}
    (hb : w₀.graph.arcIsActive b = true) (hn : (w₀.graph.arc b).child = n) (hm : b ∉ moved)
    (hz : w₀.graph.arcIsActive z = true) (hzn : (w₀.graph.arc z).child = n) (hzm : z ∉ moved)
    (hzb : z ≠ b) :
    Secures p stale (moveArc p w₀.graph.nodes.size b)
      (fun _ w' => Growing L w₀ n layer s (b :: moved) w') w := by
  intro ht
  have on := h.2.stays b hb hm
  have hch := (h.2.evolves.child b (Graph.lt_of_arcIsActive _ hb)).trans hn
  have hzch := (h.2.evolves.child z (Graph.lt_of_arcIsActive _ hz)).trans hzn
  have hl : w.graph.layerOf n = layer := (h.2.evolves.layerOf n (hn ▸ hw₀.child_lt hb)).trans hlay
  refine wp_moveArc (fun off => absurd (off.symm.trans on) nofun) fun _ => ?_
  have hpar := ht.wf.parent_lt on
  have links := Workspace.links_redirecting p hpar h.2.new_lt
  have ht₁ := ht.redirecting on hch h.2.new_lt (h.2.newLayer.trans hl.symm)
  have h₁ := h.1.redirecting hx ht.toCensus h.2.newActive on rfl
  have cut := wp_cutArc_redirecting (E := fun _ _ => True) ht.toCensus ht₁.toCensus h.2.new_lt on (h.2.stays z hz hzm)
    hzb (hzch.trans hch.symm)
  refine wp.mono (wp.and (secures_cutArc hp h₁ (links.adds.arcActive_of b on) ht₁) cut) (fun _ w₂ k => ?_)
    fun _ _ _ => trivial
  obtain ⟨⟨ht₂, he₂, hd₂⟩, hg₂, -, hu₂⟩ := k
  have he := links.adds.toEvolves.trans he₂
  exact ⟨ht₂, he, hd₂.2, h.2.move hw₀ hb hm he (Workspace.redirects ht₁.wf hpar h.2.new_lt on hg₂ hu₂)⟩

end

/-! ### Splitting off -/

/-- What is known after a bundle was split off from `n`. -/
structure SplitFrom (L : Law p d) (w : Workspace) (n : NodeId) (taken : List ArcId) (w' : Workspace) :
    Prop where
  lawful : Lawful L p.model.depth {} ([], w')
  active : w'.graph.isActive n = true
  size : w'.graph.nodes.size = w.graph.nodes.size + 1
  states : ∀ m < w.graph.nodes.size, ∀ side, w'.graph.state m side = w.graph.state m side
  upKnown : w'.upKnown = w.upKnown
  stays : ∀ a, w.graph.arcIsActive a = true → (w.graph.arc a).child = n → a ∉ taken →
    w'.graph.arcIsActive a = true
  kept : ∀ a, w'.graph.arcIsActive a = true → (w'.graph.arc a).child = n →
    w.graph.arcIsActive a = true ∧ a ∉ taken
  into : ∀ a, w'.graph.arcIsActive a = true → (w'.graph.arc a).child = w.graph.nodes.size →
    ∃ b ∈ taken, (w.graph.arc b).parent = (w'.graph.arc a).parent ∧ (w.graph.arc b).value = (w'.graph.arc a).value

section

variable {n : NodeId} {layer : Nat} {c : Candidate} {w₀ : Workspace} {s : State} {moved : List ArcId}

/-- The old node and those on the layers below keep an outgoing arc when the new node is deleted. -/
theorem Beside.anchored {bare : NodeId → Prop} (hb : Beside w₀ n layer s moved w)
    (h : Whole p L.label p.model.depth bare ([], w)) (hbare : ∀ m, bare m → m = w₀.graph.nodes.size) (hc : Census p w) :
    Anchored p w layer w₀.graph.nodes.size := by
  intro m hm om hge hsink
  have hlt : w.graph.layerOf m < p.model.depth := Nat.lt_of_le_of_ne (hc.layerOf_le om) hsink
  have hfed := (h.fed .up m om hlt).resolve_right fun hd => hd.elim (fun hd => by cases hd) fun hd => hm (hbare m hd)
  obtain ⟨a, ha⟩ := Array.isEmpty_eq_false_iff_exists_mem.1 hfed
  obtain ⟨ona, rfl⟩ := (mem_arcsOn hc.wf).1 ha
  have hadj := hc.wf.adjacent a ona
  change layer ≤ w.graph.layerOf (w.graph.arc a).parent at hge
  refine ⟨a, ⟨ona, hm, fun e => ?_, ?_⟩, rfl⟩
  · rw [e, hb.newLayer] at hadj
    omega
  · omega

/-- The children of the new node are those of the old one. -/
theorem Beside.replaced (hb : Beside w₀ n layer s moved w) (hw₀ : w₀.graph.Wf) (hw : w.graph.Wf)
    (hn : n < w₀.graph.nodes.size) (hmoved : ∀ a ∈ moved, (w₀.graph.arc a).child = n) :
    Replaced w layer w₀.graph.nodes.size := by
  intro a ha hpar
  obtain ⟨b, on, hbpar, hbch⟩ := hb.out a ha hpar
  have hlt := Graph.lt_of_arcIsActive _ on
  have hadj := hw.adjacent a ha
  rw [hpar, hb.newLayer] at hadj
  have hne : (w₀.graph.arc b).child ≠ n := by
    intro e
    have := hw₀.adjacent b on
    rw [e, hbpar] at this
    omega
  refine ⟨b, ⟨hb.stays b on fun hm => hne (hmoved b hm), ?_, ?_, ?_⟩, ?_⟩
  · rw [hb.evolves.parent b hlt, hbpar]
    exact Nat.ne_of_lt hn
  · rw [hb.evolves.child b hlt]
    exact Nat.ne_of_lt (hw₀.child_lt on)
  · rw [hb.evolves.child b hlt, hbch, hadj]
    exact Nat.le_succ _
  · rw [hb.evolves.child b hlt, hbch]

/-- Whether the new node stays or not, the old one has lost the arcs which were moved. -/
theorem Beside.splitFrom (hb : Beside w₀ n layer s moved w) (hw₀ : w₀.graph.Wf) (hw : w.graph.Wf)
    (hn : n < w₀.graph.nodes.size) (hl : w₀.graph.layerOf n = layer) {taken : List ArcId}
    (hm : ∀ a, a ∈ taken ↔ a ∈ moved) (hs : Shrinks w w') (law : Lawful L p.model.depth {} ([], w'))
    (on : w'.graph.isActive n = true) (arcs : ∀ a, Spared w layer w₀.graph.nodes.size a → w'.graph.arcIsActive a = true) :
    SplitFrom L w₀ n taken w' := by
  have hne : n ≠ w₀.graph.nodes.size := Nat.ne_of_lt hn
  have hl' : w.graph.layerOf n = layer := (hb.evolves.layerOf n hn).trans hl
  refine ⟨law, on, hs.nodes.trans hb.size, fun m hm side => ?_, hs.upKnown.trans hb.upKnown, fun a ha hch hna => ?_,
    fun a ha hch => ?_, fun a ha hch => ?_⟩
  · rw [hs.state, hb.states m hm]
  · have halt := Graph.lt_of_arcIsActive _ ha
    refine arcs a ⟨hb.stays a ha (mt (hm a).2 hna), ?_, ?_, ?_⟩
    · rw [hb.evolves.parent a halt]
      exact Nat.ne_of_lt (hw₀.parent_lt ha)
    · rw [hb.evolves.child a halt, hch]
      exact hne
    · rw [hb.evolves.child a halt, hch, hl']
  · rw [hs.child] at hch
    exact (hb.kept hw hne hl' (hs.arcActive a ha) hch).imp_right (mt (hm a).1)
  · rw [hs.child] at hch
    rw [hs.parent, hs.value]
    exact (hb.into a (hs.arcActive a ha) hch).imp fun b => And.imp_left (hm b).2

/-- The new node stays if it has arcs on both sides, and otherwise it is deleted without harm. -/
theorem secures_dropUseless (hp : p.Distinct) (h0 : 0 < layer) (hd : layer < p.model.depth)
    (hw₀ : w₀.graph.Wf) (hn : n < w₀.graph.nodes.size) (hl : w₀.graph.layerOf n = layer)
    (hc : ∀ a ∈ c.arcs, (w₀.graph.arc a).child = n) (hm : ∀ a, a ∈ c.arcs ↔ a ∈ moved)
    (on : w.graph.isActive n = true)
    (h : Lawful L p.model.depth { bare := (· = w₀.graph.nodes.size) } ([], w)) (hb : Beside w₀ n layer s moved w) :
    Secures p stale (dropUseless p w₀.graph.nodes.size) (fun _ w' => SplitFrom L w₀ n c.arcs w') w := by
  intro ht
  refine wp_dropUseless (fun _ => trivial) (fun off => absurd (off.symm.trans hb.newActive) nofun) (fun _ => ?_)
    fun out into _ => ⟨ht, .refl w, ?_⟩
  · have hroot : w.graph.layerOf w₀.graph.nodes.size ≠ 0 := by rw [hb.newLayer]; omega
    have hsink : w.graph.layerOf w₀.graph.nodes.size ≠ p.model.depth := by rw [hb.newLayer]; omega
    have anchored := hb.anchored h.toWhole (fun _ => id) ht.toCensus
    have replaced := hb.replaced hw₀ ht.wf hn fun a ha => hc a ((hm a).2 ha)
    refine wp.mono (wp.and (secures_dropNode_of (x := {}) hp (fun _ => h)
      (fun off => absurd (off.symm.trans hb.newActive) nofun) (fun _ => Or.inr) ht)
      (wp_dropNode_spares ht.toCensus hb.newActive hroot hsink anchored replaced)) (fun _ w' k => ?_)
      fun _ _ _ => trivial
    obtain ⟨⟨ht', he', ⟨hs, law⟩, -⟩, rise⟩ := k
    refine ⟨ht', he', hb.splitFrom hw₀ ht.wf hn hl hm hs law (rise.nodes n (Nat.ne_of_lt hn) on ?_) rise.arcs⟩
    exact Nat.le_of_eq ((hb.evolves.layerOf n hn).trans hl).symm
  · refine hb.splitFrom hw₀ ht.wf hn hl hm (.refl w) ⟨{ h.toWhole with fed := fun e m hm hi => ?_ }, h.abide⟩ on
      fun _ ha => ha.1
    obtain hf | hf | rfl := h.fed e m hm hi
    · exact Or.inl hf
    · cases hf
    · cases e
      · exact Or.inl into
      · exact Or.inl out

/-- A bundle is split off a node which has other arcs, too. -/
theorem secures_splitOff (hp : p.Distinct) (hx : p.options.isExact = false) (h0 : 0 < layer)
    (hd : layer < p.model.depth) (h : Lawful L p.model.depth {} ([], w))
    (on : w.graph.isActive n = true) (hl : w.graph.layerOf n = layer)
    (harcs : ∀ a ∈ c.arcs, w.graph.arcIsActive a = true ∧ (w.graph.arc a).child = n) (hnd : c.arcs.Nodup)
    (hz : ∃ z, w.graph.arcIsActive z = true ∧ (w.graph.arc z).child = n ∧ z ∉ c.arcs)
    (hr : Reaches p.model (w.leads p layer) c.arcs c.down) :
    Secures p stale (splitOff p n layer c) (fun _ w' => SplitFrom L w n c.arcs w') w := by
  intro ht
  have hw := ht.wf
  have hn := Graph.lt_of_isActive _ on
  obtain ⟨z, hzon, hzch, hzc⟩ := hz
  have enters : c.Enters layer n w := ⟨hn, hl, fun a ha => (harcs a ha).imp_left (Graph.lt_of_arcIsActive _)⟩
  refine wp_splitOff (fun _ w' => Upkept p stale w w' ∧ Growing L w n layer c.down [] w')
    (fun left w' => Upkept p stale w w' ∧ ∃ moved, c.arcs = moved.reverse ++ left ∧ Growing L w n layer c.down moved w')
    hw enters (fun _ => trivial) (fun states hs => ⟨?_, ?_⟩) (fun a _ w' _ ha k => ?_) (fun _ _ k => ⟨k.1, [], rfl, k.2⟩)
    (fun a left w' _ _ ha k => ?_) fun w' _ k => ?_
  · have h₁ := ht.addNode (Nat.le_of_lt hd) states
    exact ⟨h₁.congr rfl rfl rfl h₁.cached, (Adds.splitNode layer states w).toEvolves⟩
  · exact ⟨h.splitNode ht.toCensus h0 hd states, .start hw (Workspace.statesWith_down_up hs).1⟩
  · obtain ⟨on, hpar⟩ := hw.mem_outgoing.1 ha
    exact (secures_copyArc hx hw k.2 hl on hpar List.not_mem_nil).goesOn k.1 fun _ _ => And.intro
  · obtain ⟨hk, moved, hmem, hg⟩ := k
    have hzm : z ∉ moved := fun hm => hzc (by simp [hmem, hm])
    have ham : a ∉ moved := fun hm => by
      rw [hmem] at hnd
      exact List.disjoint_of_nodup_append hnd (List.mem_reverse.2 hm) List.mem_cons_self
    have hza : z ≠ a := by
      rintro rfl
      exact hzc ha
    refine wp.mono (secures_moveArc hp hx hw hg hl (harcs a ha).1 (harcs a ha).2 ham hzon hzch hzm hza hk.1)
      (fun _ _ l => ⟨⟨⟨l.1, hk.2.trans l.2.1⟩, a :: moved, ?_, l.2.2⟩, l.2.1⟩) fun _ _ _ => trivial
    simpa using hmem
  · obtain ⟨hk, moved, hmem, hg⟩ := k
    have hm : ∀ a, a ∈ c.arcs ↔ a ∈ moved := fun a => by simp [hmem]
    have law := Beside.lawful hx hg hk.1 hw hm (fun a ha => (harcs a ha).1) hr
    have hb : Beside w n layer c.down moved (w'.schedule p .up .full w.graph.nodes.size) :=
      hg.2.congr (.schedule _ _ _ _ _) Workspace.graph_schedule Workspace.upKnown_schedule
    -- the old node has an arc which does not move
    have onn : w'.graph.isActive n = true := by
      have := (hg.1.reached z (hg.2.stays z hzon fun hmz => hzc ((hm z).2 hmz))).resolve_right List.not_mem_nil
      rwa [show ([], w').2.graph.arc z = w'.graph.arc z from rfl,
        hg.2.evolves.child z (Graph.lt_of_arcIsActive _ hzon), hzch] at this
    refine (secures_dropUseless hp h0 hd hw hn hl (fun a ha => (harcs a ha).2) hm ?_ law hb).goesOn
      ⟨hk.1.schedule _ _ _, hk.2.trans (.schedule _ _ _ _ _)⟩ fun _ _ l hs => ⟨l.1, l.2, hs⟩
    rw [Workspace.graph_schedule]
    exact onn

end

/-! ### Splitting a layer -/

section

variable {n : NodeId} {layer : Nat}

/-- While bundles of `n` become nodes of their own: the arcs to `n` are those of the bundles which are still to be
split off, and the last ones, which stay. -/
structure Splits (p : Plan) (layer : Nat) (n : NodeId) (last : List ArcId) (cs : List Candidate) (w : Workspace) :
    Prop where
  active : w.graph.isActive n = true
  layerOf : w.graph.layerOf n = layer
  into : ∀ a, a ∈ cs.flatMap (·.arcs) ++ last ↔ w.graph.arcIsActive a = true ∧ (w.graph.arc a).child = n
  nodup : (cs.flatMap (·.arcs) ++ last).Nodup
  some : last ≠ []
  reaches : ∀ c ∈ cs, Reaches p.model (w.leads p layer) c.arcs c.down

namespace Splits

variable {last : List ArcId} {cs : List Candidate}

/-- All bundles but some are split off. -/
theorem of_bundled (hw : w.graph.Wf) {ds : List Candidate} (hb : Bundled p layer n cs w) (hd : ds.Perm cs) {room : Nat}
    (hroom : room < cs.length) : Splits p layer n ((ds.drop room).flatMap (·.arcs)) (ds.take room) w := by
  have whole : (ds.take room).flatMap (·.arcs) ++ (ds.drop room).flatMap (·.arcs) = ds.flatMap (·.arcs) := by
    rw [← List.flatMap_append, List.take_append_drop]
  have perm : (ds.flatMap (·.arcs)).Perm (w.graph.incoming n).toList := (hd.flatMap_right _).trans hb.sorted.perm
  have reaches : ∀ c ∈ ds, Reaches p.model (w.leads p layer) c.arcs c.down := fun c hc =>
    hb.sorted.reaches c (hd.subset hc)
  have hlt : room < ds.length := hd.length_eq.symm ▸ hroom
  refine ⟨hb.active, hb.layerOf, fun a => ?_, whole ▸ perm.nodup_iff.2 (hw.nodup_incoming n), fun e => ?_,
    fun c hc => reaches c (List.mem_of_mem_take hc)⟩
  · rw [whole, perm.mem_iff, Array.mem_toList_iff, hw.mem_incoming]
  · refine (reaches ds[room] (List.getElem_mem hlt)).ne_nil (List.flatMap_eq_nil_iff.1 e _ ?_)
    exact List.mem_drop_iff_getElem.2 ⟨0, by simpa using hlt, by simp⟩

variable {c : Candidate}

theorem arcs (h : Splits p layer n last (c :: cs) w) :
    ∀ a ∈ c.arcs, w.graph.arcIsActive a = true ∧ (w.graph.arc a).child = n := fun a ha =>
  (h.into a).1 (List.mem_append_left _ (List.mem_flatMap.2 ⟨c, List.mem_cons_self, ha⟩))

theorem disjoint (h : Splits p layer n last (c :: cs) w) :
    (c.arcs ++ (cs.flatMap (·.arcs) ++ last)).Nodup := by
  have := h.nodup
  rwa [List.flatMap_cons, List.append_assoc] at this

/-- An arc which stays with the node. -/
theorem spare (h : Splits p layer n last (c :: cs) w) :
    ∃ z, w.graph.arcIsActive z = true ∧ (w.graph.arc z).child = n ∧ z ∉ c.arcs := by
  obtain ⟨z, hz⟩ := List.exists_mem_of_ne_nil _ h.some
  obtain ⟨on, hch⟩ := (h.into z).1 (List.mem_append_right _ hz)
  exact ⟨z, on, hch, fun hm => List.disjoint_of_nodup_append h.disjoint hm (List.mem_append_right _ hz)⟩

theorem tail (h : Splits p layer n last (c :: cs) w) (hw : w.graph.Wf) (he : Evolves w w') (hf : SplitFrom L w n c.arcs w') :
    Splits p layer n last cs w' := by
  have hn := Graph.lt_of_isActive _ h.active
  have lt : ∀ {a}, w.graph.arcIsActive a = true → a < w.graph.arcs.size := Graph.lt_of_arcIsActive _
  have before : ∀ a, a ∈ cs.flatMap (·.arcs) ++ last → a ∈ (c :: cs).flatMap (·.arcs) ++ last := fun a ha => by
    rw [List.flatMap_cons, List.append_assoc]
    exact List.mem_append_right _ ha
  refine ⟨hf.active, (he.layerOf n hn).trans h.layerOf, fun a => ⟨fun ha => ?_, fun ⟨on, hch⟩ => ?_⟩,
    (List.nodup_append.1 h.disjoint).2.1, h.some, fun k hk => ?_⟩
  · obtain ⟨on, hch⟩ := (h.into a).1 (before a ha)
    refine ⟨hf.stays a on hch fun hm => List.disjoint_of_nodup_append h.disjoint hm ha, ?_⟩
    rw [he.child a (lt on), hch]
  · obtain ⟨on₀, hnot⟩ := hf.kept a on hch
    rw [he.child a (lt on₀)] at hch
    have := (h.into a).2 ⟨on₀, hch⟩
    rw [List.flatMap_cons, List.append_assoc] at this
    exact (List.mem_append.1 this).resolve_left hnot
  · refine (h.reaches k (List.mem_cons_of_mem _ hk)).congr fun a ha => ?_
    obtain ⟨on, -⟩ := (h.into a).1 (before a (List.mem_append_left _ (List.mem_flatMap.2 ⟨k, hk, ha⟩)))
    unfold Workspace.leads
    rw [he.parent a (lt on), he.value a (lt on), hf.states _ (hw.parent_lt on)]
    unfold Workspace.combined? Workspace.combinedKnown
    rw [hf.states _ (hw.parent_lt on), hf.upKnown]

theorem secures_head (hp : p.Distinct) (hx : p.options.isExact = false) (h0 : 0 < layer) (hd : layer < p.model.depth)
    (h : Splits p layer n last (c :: cs) w) (hlaw : Lawful L p.model.depth {} ([], w)) :
    Secures p stale (splitOff p n layer c) (fun _ w' => SplitFrom L w n c.arcs w') w :=
  secures_splitOff hp hx h0 hd hlaw h.active h.layerOf h.arcs (List.nodup_append.1 h.disjoint).1 h.spare
    (h.reaches c List.mem_cons_self)

end Splits

theorem secures_splitOffs (hp : p.Distinct) (hx : p.options.isExact = false) (h0 : 0 < layer)
    (hd : layer < p.model.depth) {last : List ArcId} {cs : List Candidate} (h : Splits p layer n last cs w)
    (hlaw : Lawful L p.model.depth {} ([], w)) :
    Secures p stale (cs.forM (splitOff p n layer)) (fun _ w' => Lawful L p.model.depth {} ([], w')) w := by
  refine (Secures.forM (fun rest w' => Splits p layer n last rest w' ∧ Lawful L p.model.depth {} ([], w')) _
    ⟨h, hlaw⟩ fun c rest w₁ _ hi ht => ?_).mono fun _ _ _ _ hi => hi.2
  exact (hi.1.secures_head hp hx h0 hd hi.2).mono (fun _ w₂ _ he hf => ⟨hi.1.tail ht.wf he hf, hf.lawful⟩) ht

/-- The state of the only bundle of a node obeys the law of the node. -/
theorem holds_of_bundle (ht : Tidy p stale [] w) (h : Lawful L p.model.depth {} ([], w))
    (on : w.graph.isActive n = true) (hl : w.graph.layerOf n = layer) {c : Candidate}
    (hs : Candidate.Sorted p.model (w.leads p layer) (w.graph.incoming n).toList [c]) (hsown : w.Sown p d n)
    (o : Option Nat) : Excused p d {} ([], w) n o ∨ L.holds (w.feedLayer d n) (w.enters d n)
      (fun q => w.graph.state q d.side) (if .down = d then c.down else w.graph.state n d.side) o := by
  cases d with
  | up => exact h.abide n on hsown id o
  | down =>
    refine Or.inr ?_
    rw [if_pos rfl]
    have hfl : w.feedLayer .down n = layer - 1 := by
      show w.graph.layerOf _ - 1 = _
      rw [hl]
    have hperm : c.arcs.Perm (w.graph.incoming n).toList := by simpa using hs.perm
    have hmem : ∀ a, a ∈ c.arcs ↔ w.graph.arcIsActive a = true ∧ (w.graph.arc a).child = n := fun a => by
      rw [hperm.mem_iff, Array.mem_toList_iff]
      exact ht.wf.mem_incoming
    refine @Law.blended _ _ L rfl _ _ _ (c.arcs.map w.graph.branch) _ _ (Workspace.feedLayer_lt ht.toCensus on hsown)
      (fun q v hq => h.toWhole.label_of_enters ht.wf hq) (fun q v => ⟨?_, ?_⟩) ?_
    · rintro ⟨a, ha, hend, rfl, rfl⟩
      exact List.mem_map.2 ⟨a, (hmem a).2 ⟨ha, hend⟩, rfl⟩
    · intro hm
      obtain ⟨a, ha, e⟩ := List.mem_map.1 hm
      obtain ⟨rfl, rfl⟩ := Prod.mk.inj e
      exact ⟨a, ((hmem a).1 ha).1, ((hmem a).1 ha).2, rfl, rfl⟩
    · rw [hfl]
      exact Reaches.map (hs.reaches c List.mem_cons_self)

/-- A node takes over the state of its only bundle. -/
theorem secures_adoptBundle (hp : p.Distinct) (hx : p.options.isExact = false) (hm : p.model.ReadsOwn) {c : Candidate}
    (hb : Bundled p layer n [c] w) (h : Lawful L p.model.depth {} ([], w)) :
    Secures p stale (adoptState p .down n c.down) (fun _ w' => Lawful L p.model.depth {} ([], w')) w := by
  intro ht
  refine secures_adoptState hp hx hm .down (x := {}) hb.active
    (fun _ e => absurd (hb.layerOf.symm.trans e) (Nat.ne_of_gt hb.pos))
    ⟨h.toWhole, fun m om hs _ o => h.abide m om hs id o⟩ (fun hs _ o => ?_) ht
  exact holds_of_bundle ht h hb.active hb.layerOf hb.sorted hs o

theorem secures_splitNodes (hp : p.Distinct) (hx : p.options.isExact = false) (hm : p.model.ReadsOwn)
    (hd : layer < p.model.depth) (maxWidth fuel : Nat) (tried : List NodeId) (h : Lawful L p.model.depth {} ([], w)) :
    Secures p stale (splitNodes p layer maxWidth fuel tried) (fun _ w' => Lawful L p.model.depth {} ([], w')) w := by
  refine .of_upholds fun ht => Splitter.wp_splitNodes (I := fun _ => Upholds stale L p.model.depth {} w) ?_ fuel
    ⟨⟨ht, .refl w⟩, h⟩
  exact
    { sound := fun k => ⟨k.1.1.wf, k.1.1.cached⟩
      quiet := fun hq k => k.quiet hq
      faults := fun _ _ => trivial
      exhausted := fun _ => trivial
      full := fun k _ => k
      done := fun k _ => k
      kept := fun _ _ k => k
      adopt := fun hb k => (secures_adoptBundle hp hx hm hb k.2).upholds k
      discard := fun _ k => wp.mono ((secures_discardDead hp k.2 _ layer _).upholds k)
        (fun _ _ k _ => k.quiet (.tally _ _)) fun _ _ _ => trivial
      split := fun hb hd' hlen k => (secures_splitOffs hp hx hb.pos hd
        (.of_bundled k.1.1.wf hb hd' (by omega)) k.2).upholds k }

end

end DecisionDiagrams
