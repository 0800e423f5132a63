import DecisionDiagrams.Proofs.Engine.Passes

/-! Every step of a propagation keeps the workspace tidy. Only the removal of arcs and nodes and the
domains of enforced layers need an argument; the other steps are made of edits which were looked at
before. -/

namespace DecisionDiagrams

open Work Cascade

variable {p : Plan} {stale : Nat → Prop} {w : Workspace}

/-! ### Removing arcs and nodes -/

theorem wp_cutArc (hp : p.Distinct) (h : Tidy p stale [] w) {a : ArcId}
    (ha : w.graph.arcIsActive a = true) :
    wp (cutArc p a) (fun _ w' => Tidy p stale [] w' ∧ Shrinks (w.unhook a) w' ∧
      Spares p (w.unhook a) w') (fun _ _ => True) w := by
  refine wp.mono (pays_cutArc h.toCensus ha []) (fun _ w' hs => ?_) fun _ _ _ => trivial
  have hc := (h.unhook ha).toCensus
  exact ⟨Steps.tidy hp hs (tidy_owed h ha), Steps.shrinks hs hc, Steps.spares hp hs hc⟩

theorem tidies_cutArc (hp : p.Distinct) {a : ArcId} (ha : w.graph.arcIsActive a = true) :
    Tidies p stale (cutArc p a) w := fun h =>
  wp.mono (wp_cutArc hp h ha)
    (fun _ _ h' => ⟨h'.1, .of_shrinks ((shrinks_unhook h.wf ha).trans h'.2.1)⟩) fun _ _ _ => trivial

/-- The root and the sink cannot be deleted. -/
theorem wp_dropNode_of_end {n : NodeId} (on : w.graph.isActive n = true)
    (ends : w.graph.layerOf n = 0 ∨ w.graph.layerOf n = p.model.depth)
    {Q : PUnit → Workspace → Prop} {E : Stop → Workspace → Prop} (hE : E .noPath w) :
    wp (dropNode p n) Q E w := by
  unfold dropNode
  rw [wp_bind, wp_get]
  unfold dropNodeWith
  rw [wp_bind, wp_get, wp_ite]
  refine ⟨fun _ => ?_, fun off => absurd on off⟩
  rw [if_pos (by simpa [Graph.layerOf] using ends), wp_bind, wp_throw]
  exact hE

/-- An active node between the root and the sink is deleted with what goes with it. -/
theorem wp_dropNode_of {n : NodeId} {Q : Workspace → Prop} {E : Stop → Workspace → Prop} (hc : Census p w)
    (gone : w.graph.isActive n = false → Q w)
    (ends : w.graph.isActive n = true → w.graph.layerOf n = 0 ∨ w.graph.layerOf n = p.model.depth → E .noPath w)
    (drops : w.graph.isActive n = true → w.graph.layerOf n ≠ 0 → w.graph.layerOf n ≠ p.model.depth → ∀ w',
      Steps p ([.drain n], w.retire n) ([], w') → Q w')
    (fails : w.graph.isActive n = true → ∀ e w', Fails p ([.drain n], w.retire n) e w' → E e w') :
    wp (dropNode p n) (fun _ => Q) E w := by
  cases hn : w.graph.isActive n with
  | false =>
    unfold dropNode
    rw [wp_bind, wp_get]
    unfold dropNodeWith
    rw [wp_bind, wp_get, wp_ite]
    exact ⟨fun on => absurd (hn.symm.trans on) nofun, fun _ => gone hn⟩
  | true =>
    by_cases atEnd : w.graph.layerOf n = 0 ∨ w.graph.layerOf n = p.model.depth
    · exact wp_dropNode_of_end hn atEnd (ends hn atEnd)
    · obtain ⟨root, sink⟩ := not_or.1 atEnd
      exact wp.mono (pays_dropNode hc hn root sink []) (fun _ w' hs => drops hn root sink w' hs) (fails hn)

/-- A node which is dropped is gone; the others stay as they were or go with it. -/
theorem wp_dropNode (hp : p.Distinct) (h : Tidy p stale [] w) (n : NodeId) :
    wp (dropNode p n) (fun _ w' => Tidy p stale [] w' ∧ Shrinks w w' ∧ w'.graph.isActive n = false)
      (fun _ _ => True) w := by
  refine wp_dropNode_of h.toCensus (fun off => ⟨h, .refl w, off⟩) (fun _ _ => trivial) (fun on _ _ w' hs => ?_)
    fun _ _ _ _ => trivial
  have ht := h.retire on
  have hsr := Steps.shrinks hs ht.toCensus
  refine ⟨Steps.tidy hp hs ht, (shrinks_retire h.wf on).trans hsr, Bool.eq_false_iff.2 fun still => ?_⟩
  exact ((Workspace.isActive_retire h.wf n).1 (hsr.active n still)).1 rfl

theorem tidies_dropNode (hp : p.Distinct) (n : NodeId) : Tidies p stale (dropNode p n) w := fun h =>
  wp.mono (wp_dropNode hp h n) (fun _ _ k => ⟨k.1, .of_shrinks k.2.1⟩) fun _ _ _ => trivial

/-- Without tests of nodes every node is kept. -/
theorem keepsNode_of_nil (h : p.model.nodeChecks = []) (w : Workspace) (n : NodeId) :
    w.keepsNode p.model n = .ok true := by
  unfold Workspace.keepsNode Model.nodePasses
  rw [h]
  split_ifs <;> rfl

theorem wp_testNodes_of_nil (h : p.model.nodeChecks = []) (E : Stop → Workspace → Prop) :
    wp (testNodes p) (fun _ w' => w' = w) E w := by
  refine wp_testNodes_of (fun _ w' => w' = w) (fun _ _ w' => w' = w) rfl (fun _ _ e => e) (fun _ _ _ _ e _ => e)
    (fun l n ns w' f k hf => ?_) (fun l n ns w' e _ fails => ?_) (fun _ _ _ _ e _ => e) (fun _ _ e => e) fun _ e => e
  · rw [keepsNode_of_nil h] at hf
    cases hf
  · rw [keepsNode_of_nil h] at fails
    cases fails

/-! ### Steps which are made of these -/

/-- A tidy workspace which goes on from another one. -/
abbrev Upkept (p : Plan) (stale : Nat → Prop) (w w' : Workspace) : Prop := Tidy p stale [] w' ∧ Evolves w w'

theorem Tidies.goesOn {α : Type} {x : Work α} {w' : Workspace} (h : Tidies p stale x w') (k : Upkept p stale w w') :
    wp x (fun _ => Upkept p stale w) (fun _ _ => True) w' :=
  wp.mono (h k.1) (fun _ _ h' => ⟨h'.1, k.2.trans h'.2⟩) fun _ _ _ => trivial

theorem tidies_alertNeighbours (d : Direction) (n : NodeId) (own onlyFlag : Bool) (changed combinedChanges : IndexSet) :
    Tidies p stale (alertNeighbours p d n own onlyFlag changed combinedChanges) w := fun h =>
  wp_alertNeighbours (I := Upkept p stale w) (fun d r n h => ⟨h.1.schedule d r n, h.2.trans (.schedule p d r n _)⟩)
    _ _ _ _ _ _ ⟨h, .refl w⟩

section

variable (hp : p.Distinct)
include hp

theorem updater_upkept (w : Workspace) : Updater p (fun _ _ => True) (Upkept p stale w) fun _ _ => True where
  cached h := h.1.cached
  quiet hq h := ⟨hq.tidy h.1, h.2.trans (.of_quiet hq)⟩
  faults _ _ := trivial
  cut on h := (tidies_cutArc hp on).goesOn h
  drop n h := (tidies_dropNode hp n).goesOn h
  note d r n h := ⟨h.1.schedule d r n, h.2.trans (.schedule p d r n _)⟩
  put s _ hn h := ⟨h.1.putState hn _ s, h.2.trans (.putState hn _ s)⟩
  clear _ _ h := ⟨h.1.congr rfl rfl rfl h.1.cached, h.2.trans (.of_graph rfl (.refl _) id id)⟩

theorem tidies_testNodes : Tidies p stale (testNodes p) w := fun h => (updater_upkept hp w).testNodes ⟨h, .refl w⟩

theorem tidies_completeNode (layer : Nat) (n : NodeId) : Tidies p stale (completeNode p layer n) w := fun h =>
  (updater_upkept hp w).toWriter.completeNode trivial trivial layer ⟨h, .refl w⟩

theorem tidies_completeNodes : Tidies p stale (completeNodes p) w := fun h =>
  (updater_upkept hp w).toWriter.completeNodes (fun _ => ⟨trivial, trivial⟩)
    ⟨h.congr rfl rfl rfl h.cached, .of_graph rfl (.refl _) (fun _ => rfl) id⟩

end

/-! ### Splitting -/

/-- A node gets a copy of an arc which starts from another node of its layer. -/
theorem Tidy.copying {new : NodeId} {a : ArcId} (h : Tidy p stale [] w) (on : w.graph.isActive new = true)
    (ha : w.graph.arcIsActive a = true) (hl : w.graph.layerOf new = w.graph.layerOf (w.graph.arc a).parent) :
    Tidy p stale [] (w.copying p new a) := by
  refine Tidy.schedule (h.connect on (h.wf.child_lt ha) ?_ fun hs => ?_) _ _ _
  · rw [hl]
    exact h.wf.adjacent a ha
  · rw [hl] at hs ⊢
    exact h.inDomain a ha hs

theorem tidies_copyArc {new : NodeId} {a : ArcId} (on : w.graph.isActive new = true)
    (ha : w.graph.arcIsActive a = true) (hl : w.graph.layerOf new = w.graph.layerOf (w.graph.arc a).parent) :
    Tidies p stale (copyArc p new a) w := fun h =>
  wp_copyArc (fun _ => trivial) (fun _ => ⟨h, .refl w⟩) fun _ => ⟨h.copying on ha hl,
    (Workspace.links_copying p (Graph.lt_of_isActive _ on) (h.wf.child_lt ha)).adds.toEvolves⟩

/-- An arc to `n` gets a copy which leads to another node of the layer. -/
theorem Tidy.redirecting {new n : NodeId} {a : ArcId} (h : Tidy p stale [] w) (on : w.graph.arcIsActive a = true)
    (hc : (w.graph.arc a).child = n) (hnew : new < w.graph.nodes.size)
    (hl : w.graph.layerOf new = w.graph.layerOf n) : Tidy p stale [] (w.redirecting p new a) := by
  refine Tidy.schedule (h.connect (h.parent_active on) hnew ?_ fun hs => h.inDomain a on hs) _ _ _
  rw [hl, ← hc]
  exact h.wf.adjacent a on

theorem tidies_moveArc (hp : p.Distinct) {new n : NodeId} {a : ArcId}
    (hc : (w.graph.arc a).child = n) (hnew : new < w.graph.nodes.size)
    (hl : w.graph.layerOf new = w.graph.layerOf n) : Tidies p stale (moveArc p new a) w := by
  intro h
  refine wp_moveArc (fun _ => ⟨h, .refl w⟩) fun on => ?_
  have hadd := (Workspace.links_redirecting p (h.wf.parent_lt on) hnew).adds
  exact (tidies_cutArc hp (hadd.arcActive_of a on)).goesOn ⟨h.redirecting on hc hnew hl, hadd.toEvolves⟩

theorem tidies_splitOff (hp : p.Distinct) {n : NodeId} {layer : Nat} {c : Candidate} (hc : c.Enters layer n w) :
    Tidies p stale (splitOff p n layer c) w := by
  intro h
  refine wp_splitOff (fun _ => Upkept p stale w) (fun _ => Upkept p stale w) h.wf hc (fun _ => trivial)
    (fun states _ => ?_) (fun a as w' hs ha hk => ?_) (fun _ _ hk => hk) (fun a as w' hs hc' ha hk => ?_)
    fun w' _ hk => ?_
  · have h₁ := h.addNode (h.le_depth hc) states
    exact ⟨h₁.congr rfl rfl rfl h₁.cached, (Adds.splitNode layer states w).toEvolves⟩
  · obtain ⟨on, hpar, -, -⟩ := hs.source h.wf hc.layerOf ha
    refine (tidies_copyArc hs.isActive_new on ?_).goesOn hk
    rw [hs.layerOf_new, hpar, hk.2.layerOf n hc.lt, hc.layerOf]
  · refine wp.mono (tidies_moveArc hp (hc'.arcs a ha).2 hs.new_lt ?_ hk.1)
      (fun _ _ k => ⟨⟨k.1, hk.2.trans k.2⟩, k.2⟩) fun _ _ _ => trivial
    rw [hs.layerOf_new, hc'.layerOf]
  · have hk' : Upkept p stale w (w'.schedule p .up .full w.graph.nodes.size) :=
      ⟨hk.1.schedule _ _ _, hk.2.trans (.schedule p _ _ _ w')⟩
    exact wp_dropUseless (fun _ => trivial) (fun _ => hk') (fun _ => (tidies_dropNode hp _).goesOn hk') fun _ _ _ => hk'

theorem tidies_splitNodes (hp : p.Distinct) (layer maxWidth fuel : Nat) (tried : List NodeId) :
    Tidies p stale (splitNodes p layer maxWidth fuel tried) w := by
  intro h
  have U : Updater p (fun _ _ => True) (Upkept p stale w) fun _ _ => True := updater_upkept hp w
  refine Splitter.wp_splitNodes (I := fun _ => Upkept p stale w) ?_ fuel ⟨h, .refl w⟩
  exact
    { sound := fun h => ⟨h.1.wf, h.1.cached⟩
      quiet := U.quiet
      faults := fun _ _ => trivial
      exhausted := fun _ => trivial
      full := fun h _ => h
      done := fun h _ => h
      kept := fun _ _ h => h
      adopt := fun hb h => U.adoptState trivial trivial hb.lt _ h
      discard := fun _ h => wp.mono (U.discardDead _ _ _ h) (fun _ _ h _ => U.quiet (.tally _ _) h) fun _ _ h => h
      split := fun hb hd _ h => hb.wp_splitOffs h.1.wf (fun _ hc => hd.subset (List.mem_of_mem_take hc)) h
        fun _ _ _ _ hc h => wp.mono (tidies_splitOff hp hc h.1) (fun _ _ k => ⟨⟨k.1, h.2.trans k.2⟩, k.2⟩)
          fun _ _ h => h }

/-! ### Passes -/

theorem tidies_passes (hp : p.Distinct) (fuel rounds done : Nat) :
    Tidies p stale (passes p fuel rounds done) w := by
  intro h
  have U : Updater p (fun _ _ => True) (Upkept p stale w) fun _ _ => True := updater_upkept hp w
  have S : Sweeper p fuel (Upkept p stale w) fun _ _ => True :=
    { tally := fun _ => U.quiet (.tally _ _)
      exhausted := fun _ => trivial
      up := fun _ _ _ => U.recomputeLayer fun _ _ => ⟨trivial, trivial⟩
      down := fun _ => U.recomputeLayer fun _ _ => ⟨trivial, trivial⟩
      split := fun _ h => (tidies_splitNodes hp _ _ _ _).goesOn h }
  exact wp.mono (S.passes rounds done ⟨h, .refl w⟩) (fun _ _ k => k.1) fun _ _ k => k

/-! ### Domains and arcs agree -/

/-- The layers whose domain is not enforced yet, after that of `layer` was. -/
def except (stale : Nat → Prop) (layer : Nat) (l : Nat) : Prop := stale l ∧ l ≠ layer

/-- An arc of the layer may only have a lost label if one of the listed nodes or arcs leads to it. -/
def Enforcing (p : Plan) (layer : Nat) (nodes : List NodeId) (arcs : List ArcId) (w : Workspace) :
    Prop :=
  ∀ a, w.graph.arcIsActive a = true → w.graph.layerOf (w.graph.arc a).parent = layer →
    w.domains.contains (p.model.var layer) (w.graph.arc a).value = true ∨
      (w.graph.arc a).parent ∈ nodes ∨ a ∈ arcs

/-- An arc whose label is in the domain needs no further look. -/
theorem Enforcing.skip {layer : Nat} {a : ArcId} {nodes : List NodeId} {arcs : List ArcId}
    (h : Enforcing p layer nodes (a :: arcs) w) (hv : w.graph.arcIsActive a = true →
      w.domains.contains (p.model.var layer) (w.graph.arc a).value = true) : Enforcing p layer nodes arcs w := by
  intro b hb hl
  rcases h b hb hl with hin | hin | hin
  · exact Or.inl hin
  · exact Or.inr (Or.inl hin)
  · rcases List.mem_cons.1 hin with rfl | hin
    · exact Or.inl (hv hb)
    · exact Or.inr (Or.inr hin)

theorem wp_cutArc_enforcing (hp : p.Distinct) (h : Tidy p stale [] w) {layer : Nat} {a : ArcId}
    {nodes : List NodeId} {arcs : List ArcId} (he : Enforcing p layer nodes (a :: arcs) w)
    (ha : w.graph.arcIsActive a = true) :
    wp (cutArc p a) (fun _ w' => Upkept p stale w w' ∧ Enforcing p layer nodes arcs w') (fun _ _ => True) w := by
  refine wp.mono (wp_cutArc hp h ha) (fun _ w' h' => ?_) fun _ _ _ => trivial
  obtain ⟨ht, hs, hsp⟩ := h'
  have hu := shrinks_unhook h.wf ha
  have hall := hu.trans hs
  refine ⟨⟨ht, .of_shrinks hall⟩, fun b hb hl => ?_⟩
  have hb' := hs.arcActive b hb
  obtain ⟨hne, -⟩ := (Graph.arcIsActive_detach (h.wf.listed a) b).1 hb'
  rw [hall.parent, hall.layerOf] at hl
  rw [hall.parent, hall.value]
  rcases he b (hall.arcActive b hb) hl with hv | hm | hm
  · left
    have kept := hsp b hb
    rw [hu.parent, hu.layerOf, hu.value, hl] at kept
    refine kept ?_
    rwa [show (w.unhook a).domains = w.domains by unfold Workspace.unhook; rfl]
  · exact Or.inr (Or.inl hm)
  · exact Or.inr (Or.inr ((List.mem_cons.1 hm).resolve_left hne))

/-- After a domain was enforced the arcs of the layer carry values of the domain. -/
theorem wp_enforceDomain (hp : p.Distinct) (h : Tidy p stale [] w) (layer : Nat) :
    wp (enforceDomain p layer) (fun _ => Upkept p (except stale layer) w) (fun _ _ => True) w := by
  refine wp_enforceDomain_of (fun nodes w' => Upkept p stale w w' ∧ Enforcing p layer nodes [] w')
    (fun nodes arcs w' => Upkept p stale w w' ∧ Enforcing p layer nodes arcs w')
    ⟨⟨h, .refl w⟩, fun a ha hl => Or.inr (Or.inl ?_)⟩ (fun n ns w₁ k => ⟨k.1, fun a ha hl => ?_⟩)
    (fun ns a as w₁ k hv => ⟨k.1, k.2.skip hv⟩) (fun ns a as w₁ k on _ => ?_) (fun _ _ k => k) fun w₁ k => ?_
  · rw [Array.mem_toList_iff, h.wf.mem_layer]
    exact ⟨h.parent_active ha, hl⟩
  · rcases k.2 a ha hl with hv | hm | hm
    · exact Or.inl hv
    · rcases List.mem_cons.1 hm with e | hm
      · exact Or.inr (Or.inr (Array.mem_toList_iff.2 (k.1.1.wf.mem_outgoing.2 ⟨ha, e⟩)))
      · exact Or.inr (Or.inl hm)
    · cases hm
  · exact wp.mono (wp_cutArc_enforcing hp k.1.1 k.2 on) (fun _ _ l => ⟨⟨l.1.1, k.1.2.trans l.1.2⟩, l.2⟩)
      fun _ _ _ => trivial
  · refine ⟨{ k.1.1 with inDomain := fun a ha hn => ?_ }, k.1.2⟩
    by_cases hl : w₁.graph.layerOf (w₁.graph.arc a).parent = layer
    · rw [hl]
      rcases k.2 a ha hl with hv | hm | hm
      · exact hv
      · cases hm
      · cases hm
    · exact k.1.1.inDomain a ha fun hs => hn ⟨hs, hl⟩

theorem wp_enforceDomains (hp : p.Distinct) (h : Tidy p stale [] w) (lost : List Nat) :
    wp (enforceDomains p lost)
      (fun _ w' => Tidy p (fun l => stale l ∧ l ∉ lost) [] w' ∧ Evolves w w') (fun _ _ => True) w := by
  refine wp_forM (fun ls w' => Tidy p (fun l => stale l ∧ (l ∈ lost → l < p.model.depth → l ∈ ls)) [] w' ∧
    Evolves w w') _ ⟨h.weaken fun l hs => ⟨hs, fun hm hd => ?_⟩, .refl w⟩ (fun l ls w₁ hi => ?_)
    fun w₁ hi => ⟨?_, hi.2⟩
  · simp [hm, hd]
  · refine wp.mono (wp_enforceDomain hp hi.1 l) (fun _ w₂ h' => ?_) fun _ _ _ => trivial
    refine ⟨h'.1.weaken fun k hk => ⟨hk.1.1, fun hm hd => ?_⟩, hi.2.trans h'.2⟩
    exact (List.mem_cons.1 (hk.1.2 hm hd)).resolve_left hk.2
  · refine { hi.1 with inDomain := fun a ha hn => hi.1.inDomain a ha fun hs => hn ⟨hs.1, fun hm => ?_⟩ }
    cases hs.2 hm (hi.1.toCensus.parent_lt_depth ha)

/-- The nodes are of the layer, and the arcs start there. -/
def OfLayer (layer : Nat) (ns : List NodeId) (as : List ArcId) (w : Workspace) : Prop :=
  (∀ n ∈ ns, n < w.graph.nodes.size ∧ w.graph.layerOf n = layer) ∧ ∀ a ∈ as, a < w.graph.arcs.size ∧
    (w.graph.arc a).parent < w.graph.nodes.size ∧ w.graph.layerOf (w.graph.arc a).parent = layer

theorem OfLayer.evolves {layer : Nat} {ns : List NodeId} {as : List ArcId} {w' : Workspace} (h : OfLayer layer ns as w)
    (he : Evolves w w') : OfLayer layer ns as w' := by
  refine ⟨fun n hn => ?_, fun a ha => ?_⟩
  · obtain ⟨hlt, hl⟩ := h.1 n hn
    exact ⟨Nat.lt_of_lt_of_le hlt he.nodes, (he.layerOf n hlt).trans hl⟩
  · obtain ⟨hlt, hpar, hl⟩ := h.2 a ha
    rw [he.parent a hlt, he.layerOf _ hpar]
    exact ⟨Nat.lt_of_lt_of_le hlt he.arcs, Nat.lt_of_lt_of_le hpar he.nodes, hl⟩

/-- What is kept by the removal of every arc whose label is not in the domain is kept when domains are
enforced. -/
theorem wp_enforceDomains_of (hp : p.Distinct) {I : Workspace → Prop} {E : Stop → Workspace → Prop}
    (hcut : ∀ w a, Tidy p stale [] w → I w → w.graph.arcIsActive a = true →
      w.domains.contains (p.model.var (w.graph.layerOf (w.graph.arc a).parent)) (w.graph.arc a).value
        = false → wp (cutArc p a) (fun _ w' => I w') E w)
    (h : Tidy p stale [] w) (hI : I w) (lost : List Nat) :
    wp (enforceDomains p lost) (fun _ w' => I w') E w := by
  refine wp_forM (fun _ w' => Tidy p stale [] w' ∧ I w') _ ⟨h, hI⟩ (fun layer _ w₁ k => ?_) fun _ k => k.2
  refine wp_enforceDomain_of (fun ns w' => (Tidy p stale [] w' ∧ I w') ∧ OfLayer layer ns [] w')
    (fun ns as w' => (Tidy p stale [] w' ∧ I w') ∧ OfLayer layer ns as w') ⟨k, fun n hn => ?_, nofun⟩
    (fun n ns w' k => ⟨k.1, fun m hm => k.2.1 m (List.mem_cons_of_mem _ hm), fun a ha => ?_⟩)
    (fun ns a as w' k _ => ⟨k.1, k.2.1, fun b hb => k.2.2 b (List.mem_cons_of_mem _ hb)⟩)
    (fun ns a as w' k on off => ?_) (fun _ _ k => k) fun _ k => k.1
  · obtain ⟨on, hl⟩ := k.1.wf.mem_layer.1 (Array.mem_toList_iff.1 hn)
    exact ⟨Graph.lt_of_isActive _ on, hl⟩
  · obtain ⟨on, hpar⟩ := k.1.1.wf.mem_outgoing.1 (Array.mem_toList_iff.1 ha)
    exact ⟨Graph.lt_of_arcIsActive _ on, k.1.1.wf.parent_lt on, hpar ▸ (k.2.1 n List.mem_cons_self).2⟩
  · have lost := hcut w' a k.1.1 k.1.2 on ((k.2.2 a List.mem_cons_self).2.2 ▸ off)
    refine wp.mono (wp.and (tidies_cutArc hp on k.1.1) lost) (fun _ w'' l => ⟨⟨l.1.1, l.2⟩, ?_⟩) fun _ _ l => l.2
    exact OfLayer.evolves ⟨k.2.1, fun b hb => k.2.2 b (List.mem_cons_of_mem _ hb)⟩ l.1.2

/-- Afterwards every value of the listed layers has an arc. -/
def Supported (p : Plan) (layers : List Nat) (w : Workspace) : Prop :=
  ∀ l ∈ layers, ∀ v, w.domains.contains (p.model.var l) v = true → w.support l v ≠ 0

/-- Only values without an arc were taken out of domains. -/
structure Trims (p : Plan) (w w' : Workspace) : Prop where
  graph : w'.graph = w.graph
  supports : w'.supports = w.supports
  cache : w'.cache = w.cache
  upKnown : w'.upKnown = w.upKnown
  built : w'.built = w.built
  agenda : w'.agenda = w.agenda
  budget : w'.budget = w.budget
  domains : w.domains.Narrows w'.domains
  spares : ∀ l < p.model.depth, ∀ v, w.support l v ≠ 0 →
    w.domains.contains (p.model.var l) v = true → w'.domains.contains (p.model.var l) v = true
  others : LeavesOthers p w w'

namespace Trims

variable {a b c w' : Workspace}

theorem refl (p : Plan) (w : Workspace) : Trims p w w :=
  ⟨rfl, rfl, rfl, rfl, rfl, rfl, rfl, .refl _, fun _ _ _ _ h => h, .of_domains rfl⟩

theorem support (h : Trims p w w') (l : Nat) (v : Int) : w'.support l v = w.support l v := by
  unfold Workspace.support
  rw [h.supports]

theorem trans (h : Trims p a b) (k : Trims p b c) : Trims p a c where
  graph := k.graph.trans h.graph
  supports := k.supports.trans h.supports
  cache := k.cache.trans h.cache
  upKnown := k.upKnown.trans h.upKnown
  built := k.built.trans h.built
  agenda := k.agenda.trans h.agenda
  budget := k.budget.trans h.budget
  domains := h.domains.trans k.domains
  spares l hl v hs hv := k.spares l hl v (by rwa [h.support]) (h.spares l hl v hs hv)
  others := h.others.trans k.others

theorem tidy (h : Trims p w w') (ht : Tidy p stale [] w) : Tidy p stale [] w' := by
  refine { ht.toCensus.congr h.graph h.supports with
    anchored := by rw [h.graph]; exact ht.anchored
    inDomain := fun a ha hn => ?_
    cached := by rw [h.cache]; exact ht.cached }
  rw [h.graph] at ha hn ⊢
  refine h.spares _ (ht.toCensus.parent_lt_depth ha) _ ?_ (ht.inDomain a ha hn)
  rw [ht.supports]
  exact Nat.ne_of_gt (Graph.labelled_pos_iff.2 ⟨a, ha, rfl, rfl⟩)

theorem evolves (h : Trims p w w') : Evolves w w' :=
  .of_graph h.graph h.domains (fun hu => h.upKnown.trans hu) fun hb => h.built.trans hb

end Trims

/-- Some value without an arc cannot be taken out of its domain. -/
def Barren (p : Plan) (w : Workspace) : Prop :=
  ∃ l < p.model.depth, ∃ v, w.support l v = 0 ∧ w.domains.remove? (p.model.var l) v = none

/-- How values without arcs fail to be taken out of the domains. -/
def TrimFails (p : Plan) (w : Workspace) (e : Stop) (w' : Workspace) : Prop :=
  e = .emptyDomain ∧ Trims p w w' ∧ Barren p w'

theorem wp_removeValue (hp : p.Distinct) {l : Nat} (hl : l < p.model.depth) {v : Int}
    (bare : w.support l v = 0) :
    wp (removeValue (p.model.var l) v)
      (fun _ w' => Trims p w w' ∧ w'.domains.contains (p.model.var l) v = false)
      (TrimFails p w) w := by
  refine wp_removeValue_of (fun left => ⟨rfl, .refl p w, l, hl, v, bare, left⟩) fun b domains left => ?_
  refine ⟨⟨rfl, rfl, rfl, rfl, rfl, rfl, rfl, Domains.narrows_remove? left, fun k hk u hs hu => ?_,
    fun y hy u hu => ?_⟩, ?_⟩
  · refine (Domains.contains_remove? left).2 ⟨hu, fun e eu => hs ?_⟩
    rw [hp.var_inj hk hl e, eu]
    exact bare
  · refine (Domains.contains_remove? left).2 ⟨hu, fun e => absurd (Model.var_mem hl) ?_⟩
    rwa [← e]
  · rw [← Bool.not_eq_true]
    exact fun h => ((Domains.contains_remove? left).1 h).2 rfl rfl

/-- The values of a layer without arcs are taken out. -/
theorem wp_removeValues (hp : p.Distinct) {l : Nat} (hl : l < p.model.depth) :
    wp (((w.domains.values (p.model.var l)).filter fun v => w.support l v == 0).forM
        (removeValue (p.model.var l)))
      (fun _ w' => Trims p w w' ∧ Supported p [l] w') (TrimFails p w) w := by
  refine wp_forM (fun vs w' => Trims p w w' ∧ (∀ v ∈ vs, w.support l v = 0) ∧
      ∀ v, w'.domains.contains (p.model.var l) v = true → w.support l v ≠ 0 ∨ v ∈ vs) _
    ⟨.refl p w, fun v hv => by simpa using (List.mem_filter.1 hv).2, fun v hv => ?_⟩
    (fun v vs w₁ hi => ?_) fun w₁ hi => ⟨hi.1, fun k hk v hv => ?_⟩
  · by_cases h0 : w.support l v = 0
    · exact Or.inr (List.mem_filter.2 ⟨Domains.mem_values.2 hv, by simpa using h0⟩)
    · exact Or.inl h0
  · obtain ⟨ht, hz, hd⟩ := hi
    have bare : w₁.support l v = 0 := (ht.support l v).trans (hz v List.mem_cons_self)
    refine wp.mono (wp_removeValue hp hl bare) (fun _ w₂ h => ?_)
      fun e w₂ hf => ⟨hf.1, ht.trans hf.2.1, hf.2.2⟩
    refine ⟨ht.trans h.1, fun u hu => hz u (List.mem_cons_of_mem _ hu), fun u hu => ?_⟩
    refine (hd u (h.1.domains.contains _ _ hu)).imp id fun hm => ?_
    refine (List.mem_cons.1 hm).resolve_left ?_
    rintro rfl
    rw [h.2] at hu
    cases hu
  · obtain rfl := List.mem_singleton.1 hk
    rw [hi.1.support]
    exact (hi.2.2 v hv).resolve_right List.not_mem_nil

/-- The domains are enforced by taking out values without arcs, and nothing else happens. -/
theorem wp_enforceSupports (hp : p.Distinct) (w : Workspace) :
    wp (enforceSupports p)
      (fun _ w' => Trims p w w' ∧ Supported p (List.range p.model.depth) w') (TrimFails p w) w := by
  unfold enforceSupports
  refine wp_forM (fun ls w' => (∀ l ∈ ls, l < p.model.depth) ∧ Trims p w w' ∧
      ∀ l < p.model.depth, l ∉ ls → ∀ v, w'.domains.contains (p.model.var l) v = true →
        w.support l v ≠ 0) _
    ⟨fun l hl => List.mem_range.1 hl, .refl p w, fun l hl hn => absurd (List.mem_range.2 hl) hn⟩
    (fun l ls w₁ hi => ?_) fun w₁ hi => ⟨hi.2.1, fun l hl v hv => ?_⟩
  · obtain ⟨hlt, ht, hd⟩ := hi
    dsimp only
    rw [wp_bind, wp_get]
    refine wp.mono (wp_removeValues hp (hlt l List.mem_cons_self)) (fun _ w₂ h => ?_)
      fun e w₂ hf => ⟨hf.1, ht.trans hf.2.1, hf.2.2⟩
    refine ⟨fun k hk => hlt k (List.mem_cons_of_mem _ hk), ht.trans h.1, fun k hk hm v hv => ?_⟩
    by_cases e : k = l
    · subst e
      rw [← (ht.trans h.1).support]
      exact h.2 k List.mem_cons_self v hv
    · refine hd k hk (fun h => ?_) v (h.1.domains.contains _ _ hv)
      exact (List.mem_cons.1 h).elim e hm
  · rw [hi.2.1.support]
    exact hi.2.2 l (List.mem_range.1 hl) List.not_mem_nil v hv

theorem tidies_enforceSupports (hp : p.Distinct) : Tidies p stale (enforceSupports p) w := fun h =>
  wp.mono (wp_enforceSupports hp w) (fun _ _ h' => ⟨h'.1.tidy h, h'.1.evolves⟩) fun _ _ _ => trivial

end DecisionDiagrams
