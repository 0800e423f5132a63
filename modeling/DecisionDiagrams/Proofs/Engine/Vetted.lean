import DecisionDiagrams.Proofs.Engine.Faithful

/-! Diagrams without a width whose up states are known from the start, because no rule computes any. All
nodes are tested when such a diagram is built. Afterwards it only loses arcs and nodes, and a test
which looks at nothing but the down state stays passed. -/

namespace DecisionDiagrams

open Work Cascade

/-- A test of nodes which only looks at the down state. -/
def SeesDown (check : NodeFacts → Checked Bool) : Prop :=
  ∀ f g : NodeFacts, f.down = g.down → check f = check g

/-- A down state passes the tests which look at nothing else. -/
def Model.Vets (m : Model) (down : State) : Prop :=
  ∀ check ∈ m.nodeChecks, SeesDown check → ∀ f : NodeFacts, f.down = m.view .down down →
    check f = .ok true

/-- An exact diagram whose nodes pass the tests which look at the down state. -/
structure Vetted (p : Plan) (w : Workspace) : Prop extends Exact p w where
  vets : ∀ n, w.graph.isActive n = true → p.model.Vets (w.graph.state n .down)

variable {p : Plan} {stale : Nat → Prop} {w w' : Workspace}

theorem Vetted.shrink (h : Vetted p w) (hs : Shrinks w w') : Vetted p w' :=
  ⟨h.toExact.shrink hs, fun n hn => by
    rw [hs.state]
    exact h.vets n (hs.active n hn)⟩

theorem Vetted.congr (h : Vetted p w) (hg : w'.graph = w.graph) (hu : w'.upKnown = w.upKnown) :
    Vetted p w' :=
  ⟨h.toExact.congr hg hu, by
    rw [hg]
    exact h.vets⟩

/-- A node which is kept passes the tests. -/
theorem vets_of_keepsNode (hu : w.upKnown = true) {n : NodeId}
    (h : w.keepsNode p.model n = .ok true) : p.model.Vets (w.graph.state n .down) := by
  intro check hc hd f hf
  unfold Workspace.keepsNode at h
  rw [if_pos hu] at h
  rw [hd f (w.nodeFacts p.model n (w.graph.node n).states) hf]
  exact Checked.of_allM h check hc

/-- The nodes above layer `l`, and those of layer `l` which are not in `left`, pass the tests. -/
def VettedTo (p : Plan) (l : Nat) (left : List NodeId) (w : Workspace) : Prop :=
  ∀ n, w.graph.isActive n = true →
    w.graph.layerOf n < l ∨ w.graph.layerOf n = l ∧ n ∉ left → p.model.Vets (w.graph.state n .down)

theorem VettedTo.shrink {l : Nat} {left : List NodeId} (h : VettedTo p l left w)
    (hs : Shrinks w w') : VettedTo p l left w' := by
  intro n hn hl
  rw [hs.layerOf] at hl
  rw [hs.state]
  exact h n (hs.active n hn) hl

/-- A node of the list which is gone or passes the tests need not be tested. -/
theorem VettedTo.tail {l : Nat} {n : NodeId} {left : List NodeId} (h : VettedTo p l (n :: left) w) (hs : Shrinks w w')
    (self : w'.graph.isActive n = true → p.model.Vets (w'.graph.state n .down)) : VettedTo p l left w' := by
  intro m hm hl
  by_cases e : m = n
  · subst e
    exact self hm
  · refine h.shrink hs m hm (hl.imp_right fun hl => ⟨hl.1, fun hmem => ?_⟩)
    exact (List.mem_cons.1 hmem).elim e hl.2

/-- The nodes of an exact diagram are tested, while the nodes of the list wait. -/
structure Vetting (p : Plan) (stale : Nat → Prop) (l : Nat) (left : List NodeId) (w : Workspace) : Prop where
  tidy : Tidy p stale [] w
  exact : Exact p w
  upKnown : w.upKnown = true
  vetted : VettedTo p l left w

theorem wp_testNodes (hp : p.Distinct) (ht : Tidy p stale [] w) (he : Exact p w)
    (hu : w.upKnown = true) :
    wp (testNodes p) (fun _ w' => Tidy p stale [] w' ∧ Vetted p w') (fun _ _ => True) w := by
  -- all nodes of the layer wait when it is reached
  have whole : ∀ {l : Nat} {n : NodeId} {w' : Workspace}, Tidy p stale [] w' → w'.graph.isActive n = true →
      w'.graph.layerOf n = l → n ∈ (w'.graph.layer l).toList := fun ht on hl =>
    Array.mem_toList_iff.2 (ht.wf.mem_layer.2 ⟨on, hl⟩)
  refine wp_testNodes_of (fun l w' => Vetting p stale l (w'.graph.layer l).toList w') (Vetting p stale)
    ⟨ht, he, hu, fun n hn hl => ?_⟩ (fun _ _ k => k) (fun l n ns w' k off => ?_) (fun _ _ _ _ _ _ _ => trivial)
    (fun l n ns w' k _ _ => ?_) (fun l n ns w' k passes => ?_) (fun l w' k => ?_)
    fun w' k => ⟨k.tidy, k.exact, fun n hn => ?_⟩
  · obtain hl | ⟨hl, hm⟩ := hl
    · exact absurd hl (Nat.not_lt_zero _)
    · exact absurd (whole ht hn hl) hm
  · exact ⟨k.tidy, k.exact, k.upKnown, k.vetted.tail (.refl w') fun on => absurd (off.symm.trans on) nofun⟩
  · refine wp.mono (wp_dropNode hp k.tidy n) (fun _ w'' h => ?_) fun _ _ _ => trivial
    obtain ⟨ht', hs, off⟩ := h
    exact ⟨ht', k.exact.shrink hs, hs.upKnown.trans k.upKnown, k.vetted.tail hs fun on => absurd (off.symm.trans on) nofun⟩
  · exact ⟨k.tidy, k.exact, k.upKnown, k.vetted.tail (.refl w') fun _ => vets_of_keepsNode k.upKnown passes⟩
  · refine ⟨k.tidy, k.exact, k.upKnown, fun n hn hl => k.vetted n hn ?_⟩
    obtain hl | ⟨hl, hm⟩ := hl
    · exact (Nat.lt_succ_iff_lt_or_eq.1 hl).imp_right fun e => ⟨e, List.not_mem_nil⟩
    · exact absurd (whole k.tidy hn hl) hm
  · exact k.vetted n hn (Or.inl (Nat.lt_succ_of_le (k.tidy.toCensus.layerOf_le hn)))

/-- A layer which is built keeps an exact diagram exact. -/
theorem Exact.wp_growLayer (hp : p.Distinct) (h : Exact p w) (ht : Tidy p stale [] w) {l : Nat}
    (low : ∀ n < w.graph.nodes.size, w.graph.layerOf n ≤ l) (hl : l < p.model.depth) :
    wp (growLayer p none l) (fun _ w' => Tidy p stale [] w' ∧ Exact p w' ∧
      ∀ n < w'.graph.nodes.size, w'.graph.layerOf n ≤ l + 1) (fun _ _ => True) w := by
  refine wp.mono (DecisionDiagrams.wp_growLayer (by simp) hl ht) (fun _ w' hg => ?_)
    fun _ _ _ => trivial
  obtain ⟨w₁, ds, ht₁, hlay, hs, -⟩ := hg
  have hshrinks := Steps.shrinks hs ht₁.toCensus
  refine ⟨Steps.tidy hp hs ht₁, (h.layered ht.toCensus low hlay).shrink hshrinks, fun n hn => ?_⟩
  rw [hshrinks.layerOf]
  exact hlay.low low n (Nat.lt_of_lt_of_eq hn hshrinks.nodes)

namespace Vetted

theorem wp_enforceSupports (hp : p.Distinct) (h : Vetted p w) :
    wp (enforceSupports p) (fun _ w' => Vetted p w') (fun _ _ => True) w :=
  wp.mono (DecisionDiagrams.wp_enforceSupports hp w)
    (fun _ _ h' => h.congr h'.1.graph h'.1.upKnown) fun _ _ _ => trivial

theorem wp_enforceDomains (hp : p.Distinct) (h : Vetted p w) (ht : Tidy p stale [] w)
    (lost : List Nat) :
    wp (enforceDomains p lost) (fun _ w' => Vetted p w') (fun _ _ => True) w := by
  refine wp_enforceDomains_of hp (fun w a ht h ha _ => ?_) ht h lost
  exact wp.mono (wp_cutArc hp ht ha)
    (fun _ w' h' => h.shrink ((shrinks_unhook ht.wf ha).trans h'.2.1)) fun _ _ _ => trivial

/-- A diagram which was not built yet is exact when it is built, and its nodes are tested. -/
theorem wp_grow (hp : p.Distinct) (known : p.model.hasUp = false) {k : Nat}
    (hg : w.graph = Graph.withLayers k) (hu : w.upKnown = !p.model.hasUp) (ht : Tidy p stale [] w) :
    wp (grow p none) (fun _ w' => Vetted p w') (fun _ _ => True) w := by
  let I : Nat → Workspace → Prop := fun l w' =>
    Tidy p stale [] w' ∧ Exact p w' ∧ ∀ n < w'.graph.nodes.size, w'.graph.layerOf n ≤ l
  have upKnown : ∀ {w'}, Exact p w' → w'.upKnown = true := fun h => by rw [h.upKnown, known]; rfl
  refine wp_grow_of I (Vetted p) (fun _ => trivial) (fun states hs => ?_)
    (fun l hl w' h => h.2.1.wp_growLayer hp h.1 h.2.2 hl) (fun w' hk h => ?_) (fun w' hn h => ?_)
    fun _ h => h.wp_enforceSupports hp
  · have root := Faithful.start (p := p) (w := w.opened) hg hu rfl hs
    have tidy : Tidy p stale [] w.opened := ht.congr rfl rfl rfl ht.cached
    exact ⟨tidy.addNode (Nat.zero_le _) states, root.exact, root.low⟩
  · exact wp.mono (wp_testNodes hp h.1 h.2.1 hk) (fun _ _ h => h.2) fun _ _ h => h
  · exact absurd (hn.symm.trans (upKnown h.2.1)) nofun

theorem wp_maintainExact (hp : p.Distinct) (known : p.model.hasUp = false) (ht : Tidy p stale [] w)
    (h : w.built = true ∧ Vetted p w ∨
      w.built = false ∧ w.upKnown = (!p.model.hasUp) ∧ ∃ k, w.graph = Graph.withLayers k)
    (lost : List Nat) :
    wp (maintainExact p lost) (fun _ w' => Vetted p w') (fun _ _ => True) w := by
  refine wp_maintainExact_of (Vetted p) (fun new => ?_) (fun old => ?_) fun _ h => h.wp_enforceSupports hp
  · obtain ⟨hb, -⟩ | ⟨-, hu, k, hg⟩ := h
    · exact absurd (hb.symm.trans new) nofun
    · exact wp_grow hp known hg hu ht
  · obtain ⟨-, h⟩ | ⟨hb, -⟩ := h
    · exact h.wp_enforceDomains hp ht lost
    · exact absurd (hb.symm.trans old) nofun

end Vetted
end DecisionDiagrams
